import Hisab.Parallel.CallbackLedger

/-!
# The ledger of a queue

The places of a state of the queue: the elements of the deque, and the frames of the threads.
Every step of a thread is an entry of the ledger, so that the ledger is right in every state
that the queue reaches, however its threads interleave.
-/

namespace Hisab.Parallel

open Base Ledger Function List List.Subset Option

/-- The futures that a call of `must_wait` is about. -/
def MustWaitUse.futures : MustWaitUse → List Nat
  | .pushDependent priors _ => priors
  | .wait futures | .pushControl _ futures => futures

namespace CallbackQueue

/-- The futures that a frame is responsible for, with their roles. -/
def frameRoles : QueueFrame → List (Nat × FutureRole)
  | .push x | .pushFront x => [(x, .queued)]
  | .mustWait _ (.pushControl x futures) => [(x, .preparing futures)]
  | .register d rest => [(d, .registering rest)]
  | .registerLock d p rest => [(d, .registering (p :: rest))]
  | .registerAdd d rest => [(d, .adding rest)]
  | .invoke x => [(x, .invoking)]
  | .body x => [(x, .inBody)]
  | .signal x => [(x, .signalling)]
  | .signalling x ds => (x, .signalling) :: ds.map fun d ↦ (d, .toLaunch)
  | .launch ds | .launching _ ds => ds.map fun d ↦ (d, .toLaunch)
  | _ => []

def stackRoles (stack : List QueueFrame) : List (Nat × FutureRole) := stack.flatMap frameRoles

/-- The futures in the deque. -/
def queueRoles (q : List (Option Nat)) : List (Nat × FutureRole) :=
  q.filterMap fun a ↦ a.map fun x ↦ (x, .queued)

/-- The ledger of a state with `n` threads. -/
def ledger (n : Nat) (s : CallbackQueue) : Ledger where
  future := s.future
  count := s.count
  entered := s.entered
  roles := queueRoles s.invokerQueue ++ held stackRoles n s.thread

/-- A call of `must_wait` has passed only futures that are ready, and all are in range. -/
def FrameOk (s : CallbackQueue) : QueueFrame → Prop
  | .mustWait rest use => ∀ p ∈ use.futures, p < s.count ∧ (p ∈ rest ∨ (s.future p).status = .ready)
  | .wait _ _ futures => ∀ p ∈ futures, p < s.count
  | _ => True

/-- What holds in every state. -/
structure Inv (n : Nat) (s : CallbackQueue) : Prop where
  ledger : (s.ledger n).Ok
  frames : ∀ t < n, ∀ f ∈ s.thread t, s.FrameOk f
  controls : ∀ x ∈ s.controlFutures, x < s.count

variable {n t x : Nat} {s s' : CallbackQueue} {f : QueueFrame} {fs stack : List QueueFrame}
  {q : List (Option Nat)} {rest : List Nat}

@[simp] theorem stackRoles_cons (f : QueueFrame) (fs : List QueueFrame) :
    stackRoles (f :: fs) = frameRoles f ++ stackRoles fs := rfl

@[simp] theorem queueRoles_none (q : List (Option Nat)) :
    queueRoles (none :: q) = queueRoles q := by simp [queueRoles]

@[simp] theorem queueRoles_some (x : Nat) (q : List (Option Nat)) :
    queueRoles (some x :: q) = (x, .queued) :: queueRoles q := by simp [queueRoles]

@[simp] theorem queueRoles_append (q q' : List (Option Nat)) :
    queueRoles (q ++ q') = queueRoles q ++ queueRoles q' := by
  simp [queueRoles]

@[simp] theorem queueRoles_popFrontNullptr (q : List (Option Nat)) :
    queueRoles (popFrontNullptr q) = queueRoles q := by
  induction q with
  | nil => rfl
  | cons a q ih =>
    cases a with
    | none => rw [popFrontNullptr, ih, queueRoles_none]
    | some x => rfl

/-- Only the flag of the loop of `wait` changes when `try_invoke` fails. -/
theorem stackRoles_returnFalse (fs : List QueueFrame) :
    stackRoles (returnFalse fs) = stackRoles fs := by
  unfold returnFalse
  split <;> rfl

theorem FrameOk.mono (h : s.FrameOk f) (hcount : s.count ≤ s'.count)
    (hready : ∀ p < s.count, (s.future p).status = .ready → (s'.future p).status = .ready) :
    s'.FrameOk f := by
  cases f with
  | mustWait rest use =>
    exact fun p hp ↦ ⟨(h p hp).1.trans_le hcount, (h p hp).2.imp_right (hready p (h p hp).1)⟩
  | wait rest flag futures => exact fun p hp ↦ (h p hp).trans_le hcount
  | _ => trivial

theorem frameOk_returnFalse (h : ∀ f ∈ fs, s.FrameOk f) : ∀ f ∈ returnFalse fs, s.FrameOk f := by
  unfold returnFalse
  split
  next rest flag futures fs =>
    intro f hf
    rcases mem_cons.mp hf with rfl | hf
    · exact h (.wait rest flag futures) mem_cons_self
    · exact h f (mem_cons_of_mem _ hf)
  · exact h

/-- The frames of a stack are right, given those of `fs`. -/
def Keeps (s : CallbackQueue) (fs stack : List QueueFrame) : Prop :=
  ∀ g ∈ stack, g ∈ fs ∨ s.FrameOk g

theorem Keeps.refl (s : CallbackQueue) (fs : List QueueFrame) : s.Keeps fs fs := fun _ ↦ .inl

theorem Keeps.cons (hf : s.FrameOk f) (h : s.Keeps fs stack) : s.Keeps fs (f :: stack) := by
  intro g hg
  rcases mem_cons.mp hg with rfl | hg
  · exact .inr hf
  · exact h g hg

/-- A status other than `READY` may change. -/
theorem ready_update {g : Nat → SharedFuture} {r : SharedFuture} (hx : (g x).status ≠ .ready)
    (p : Nat) (hp : (g p).status = .ready) : (update g x r p).status = .ready := by
  have hpx : p ≠ x := by
    rintro rfl
    exact hx hp
  rwa [update_of_ne hpx]

/-! ## A step of one thread -/

/-- A step whose entry in the ledger is right, and that leaves what is ready. -/
theorem Inv.of_entry (h : Inv n s) (ht : t < n) (hst : s.thread t = f :: fs)
    (new : List (Nat × FutureRole)) (hthread : s'.thread = update s.thread t stack)
    (hroles : stackRoles stack = new ++ stackRoles fs)
    (hentry : ∀ R, Ok ⟨s.future, s.count, s.entered,
      frameRoles f ++ (queueRoles s.invokerQueue ++ R)⟩ →
      Ok ⟨s'.future, s'.count, s'.entered, new ++ (queueRoles s'.invokerQueue ++ R)⟩)
    (hready : ∀ p < s.count, (s.future p).status = .ready → (s'.future p).status = .ready)
    (hcount : s.count ≤ s'.count) (hframes : s'.Keeps fs stack)
    (hcontrols : ∀ x ∈ s'.controlFutures, x < s'.count) : Inv n s' where
  ledger := by
    have hbefore : (held stackRoles n s.thread).Perm
        (stackRoles (s.thread t) ++ heldRest stackRoles n s.thread t) := held_perm ht
    have hafter : (held stackRoles n (update s.thread t stack)).Perm
        (stackRoles stack ++ heldRest stackRoles n s.thread t) := held_update_perm ht stack
    rw [hst, stackRoles_cons, append_assoc] at hbefore
    rw [← hthread, hroles, append_assoc] at hafter
    have hok := hentry _ (h.ledger.perm ((hbefore.append_left _).trans (perm_append_comm_assoc ..)))
    exact hok.perm ((perm_append_comm_assoc ..).trans (hafter.symm.append_left _))
  frames i hi g hg := by
    have hold : ∀ g, s.FrameOk g → s'.FrameOk g := fun g hg ↦ hg.mono hcount hready
    rw [hthread] at hg
    by_cases hit : i = t
    · subst hit
      rw [update_self] at hg
      rcases hframes g hg with hg | hg
      · exact hold g (h.frames i hi g (hst ▸ mem_cons_of_mem _ hg))
      · exact hg
    · rw [update_of_ne hit] at hg
      exact hold g (h.frames i hi g hg)
  controls := hcontrols

/-- A step that only moves its thread on, and at most drops holes of the deque. -/
theorem Inv.of_stack (h : Inv n s) (ht : t < n) (hst : s.thread t = f :: fs)
    (hroles : stackRoles stack = frameRoles f ++ stackRoles fs) (hframes : s.Keeps fs stack)
    (hq : queueRoles q = queueRoles s.invokerQueue) :
    Inv n { s.setStack t stack with invokerQueue := q } :=
  h.of_entry ht hst _ rfl hroles (fun R hR ↦ by rw [hq]; exact hR) (fun _ _ hp ↦ hp) le_rfl hframes
    h.controls

/-- The frame's place in the ledger, and the rest. -/
theorem Inv.entry (h : Inv n s) (ht : t < n) (hst : s.thread t = f :: fs) :
    ∃ R, Ok ⟨s.future, s.count, s.entered, frameRoles f ++ R⟩ := by
  refine ⟨queueRoles s.invokerQueue ++ (stackRoles fs ++ heldRest stackRoles n s.thread t), ?_⟩
  have hperm : (held stackRoles n s.thread).Perm
      (stackRoles (s.thread t) ++ heldRest stackRoles n s.thread t) := held_perm ht
  rw [hst, stackRoles_cons, append_assoc] at hperm
  exact h.ledger.perm ((hperm.append_left _).trans (perm_append_comm_assoc ..))

/-- The queue begins with a task, or has none. -/
theorem popFrontNullptr_cases (q : List (Option Nat)) :
    popFrontNullptr q = [] ∨ ∃ x q', popFrontNullptr q = some x :: q' := by
  induction q with
  | nil => exact .inl rfl
  | cons a q ih =>
    cases a with
    | none => exact ih
    | some x => exact .inr ⟨x, q, rfl⟩

/-- A step on the task of the frame, after which the frame's place and the queue are right. -/
theorem Inv.of_update (h : Inv n s) (ht : t < n) (hst : s.thread t = f :: fs)
    (new : List (Nat × FutureRole)) {r : SharedFuture} {e controlFutures : List Nat}
    (hx : (s.future x).status ≠ .ready) (hroles : stackRoles stack = new ++ stackRoles fs)
    (hentry : ∀ R, Ok ⟨s.future, s.count, s.entered, frameRoles f ++ (queueRoles s.invokerQueue ++ R)⟩ → Ok ⟨update s.future x r, s.count, e, new ++ (queueRoles q ++ R)⟩)
    (hframes : ∀ s' : CallbackQueue, s'.Keeps fs stack)
    (hcontrols : controlFutures ⊆ s.controlFutures) : Inv n { s with
      future := update s.future x r
      thread := update s.thread t stack
      invokerQueue := q
      controlFutures := controlFutures
      entered := e } :=
  h.of_entry ht hst new rfl hroles hentry (fun p _ ↦ ready_update hx p) le_rfl (hframes _)
    fun x hx ↦ h.controls x (hcontrols hx)

/-- An element of the deque is queued. -/
theorem Inv.enqueued_of_mem (h : Inv n s) (hx : (x, .queued) ∈ queueRoles s.invokerQueue) :
    (s.future x).status = .enqueued :=
  (h.ledger.role _ (mem_append_left _ hx)).2

theorem Inv.pop (h : Inv n s) (ht : t < n) (hst : s.thread t = .loop :: fs)
    (hs : s.pop n t fs = some s') : Inv n s' := by
  obtain ⟨-, hs⟩ := ite_none_right_eq_some.mp hs
  have hkeep := queueRoles_popFrontNullptr s.invokerQueue
  split at hs
  next x q hq =>
    cases hs
    have hroles : queueRoles s.invokerQueue = (x, .queued) :: queueRoles (popFrontNullptr q) := by
      rw [← hkeep, hq, queueRoles_some, queueRoles_popFrontNullptr]
    have hx := h.enqueued_of_mem (hroles ▸ mem_cons_self)
    refine h.of_update ht hst [(x, .invoking)] (by simp [hx]) rfl (fun R hR ↦ ?_)
      (fun _ ↦ .cons trivial (.cons trivial (.refl _ _))) (refl _)
    rw [hroles] at hR
    exact hR.take
  next hne =>
    cases hs
    have hnil : popFrontNullptr s.invokerQueue = [] := by
      rcases popFrontNullptr_cases s.invokerQueue with hnil | ⟨x, q, hq⟩
      · exact hnil
      · exact absurd hq (hne x q)
    rw [hnil] at hkeep
    exact h.of_stack ht hst rfl (.refl _ _) hkeep

theorem Inv.pushBack (h : Inv n s) (ht : t < n) (hst : s.thread t = .push x :: fs)
    (hs : s.pushBack n t x fs = some s') : Inv n s' := by
  obtain ⟨-, rfl⟩ := ite_some_iff.mp hs
  obtain ⟨R, hok⟩ := h.entry ht hst
  have hx : (s.future x).status = .enqueued := (hok.role _ mem_cons_self).2
  refine h.of_update ht hst [] (by simp [hx]) rfl (fun R hR ↦ ?_) (fun _ ↦ .refl _ _) (refl _)
  refine (hR.reindex _).perm ?_
  rw [queueRoles_append, append_assoc]
  show ((x, FutureRole.queued) :: (queueRoles s.invokerQueue ++ R)).Perm _
  exact perm_middle.symm

theorem Inv.pushFront (h : Inv n s) (ht : t < n) (hst : s.thread t = .pushFront x :: fs)
    (hs : s.pushFront n t x fs = some s') : Inv n s' := by
  obtain ⟨-, rfl⟩ := ite_some_iff.mp hs
  obtain ⟨R, hok⟩ := h.entry ht hst
  have hx : (s.future x).status = .enqueued := (hok.role _ mem_cons_self).2
  refine h.of_update ht hst [] (by simp [hx]) rfl (fun R hR ↦ ?_) (fun _ ↦ .refl _ _) (refl _)
  exact hR.reindex _

/-- A step that makes a future, for which the frame on top is responsible. -/
theorem Inv.create (h : Inv n s) (ht : t < n) (hst : s.thread t = f :: fs)
    (role : Option FutureRole) {r : SharedFuture} {controlFutures : List Nat}
    (hfresh : ∀ R, Ok ⟨s.future, s.count, s.entered, R⟩ →
      Fresh ⟨s.future, s.count, s.entered, R⟩ r role)
    (hroles : stackRoles stack =
      role.toList.map (Prod.mk s.count) ++ (frameRoles f ++ stackRoles fs))
    (hframes : ((s.create r).setStack t stack).Keeps fs stack)
    (hcontrols : ∀ x ∈ controlFutures, x < s.count + 1) :
    Inv n { (s.create r).setStack t stack with controlFutures := controlFutures } := by
  refine h.of_entry ht hst (role.toList.map (Prod.mk s.count) ++ frameRoles f) rfl ?_
    (fun R hR ↦ ?_) (fun p hp hready ↦ ?_) (Nat.le_succ _) hframes hcontrols
  · rw [hroles, append_assoc]
  · rw [append_assoc]
    exact hR.create role (hfresh _ hR)
  · exact (congrArg SharedFuture.status (update_of_ne (Nat.ne_of_lt hp) ..)).trans hready

/-- `must_wait` answers no. -/
theorem Inv.mustNotWait (h : Inv n s) (ht : t < n) {use : MustWaitUse}
    (hst : s.thread t = .mustWait [] use :: fs) (hs : s.mustNotWait n t fs use = some s') :
    Inv n s' := by
  have hready : ∀ p ∈ use.futures, p < s.count ∧ (s.future p).status = .ready := by
    intro p hp
    have hframe := h.frames t ht (.mustWait [] use) (hst ▸ mem_cons_self) p hp
    exact ⟨hframe.1, hframe.2.resolve_left not_mem_nil⟩
  cases use with
  | pushDependent priors returnsValue =>
    cases hs
    refine h.create ht hst (some .queued) (fun R hR ↦ ?_) rfl
      (.cons trivial (.refl _ _)) fun x hx ↦ (h.controls x hx).trans (Nat.lt_succ_self _)
    exact ⟨rfl, rfl, fun p hp ↦ (hready p hp).1, .inr ⟨rfl, fun p hp ↦ (hready p hp).2⟩,
      by simp, by simp⟩
  | wait futures =>
    cases hs
    exact h.of_stack ht hst rfl (.refl _ _) rfl
  | pushControl x futures =>
    obtain ⟨-, rfl⟩ := ite_some_iff.mp hs
    obtain ⟨R, hok⟩ := h.entry ht hst
    have hx : (s.future x).status = .constructing := (hok.role _ mem_cons_self).2.1
    exact h.of_update ht hst [(x, .queued)] (by simp [hx]) rfl
      (fun R hR ↦ hR.prepared fun p hp ↦ (hready p hp).2)
      (fun _ ↦ .cons trivial (.refl _ _)) (refl _)

/-- `must_wait` answers yes. -/
theorem Inv.mustDoWait (h : Inv n s) (ht : t < n) {use : MustWaitUse} {p : Nat}
    (hst : s.thread t = .mustWait (p :: rest) use :: fs) : Inv n (s.mustDoWait t fs use) := by
  have hlt : ∀ p ∈ use.futures, p < s.count := fun p hp ↦
    (h.frames t ht (.mustWait _ use) (hst ▸ mem_cons_self) p hp).1
  cases use with
  | pushDependent priors returnsValue =>
    let d : SharedFuture := { returnsValue := returnsValue, priors := priors }
    let r : SharedFuture := { status := .enqueued, kind := .registration s.count }
    have hlt' : ∀ p < s.count, update (update s.future s.count d) (s.count + 1) r p
        = s.future p := by
      intro p hp
      rw [update_of_ne (by omega), update_of_ne (by omega)]
    refine h.of_entry ht hst [(s.count + 1, .queued)] rfl rfl (fun R hR ↦ ?_)
      (fun p hp hready ↦ (congrArg SharedFuture.status (hlt' p hp)).trans hready)
      (Nat.le_add_right _ 2) (.cons trivial (.refl _ _))
      fun x hx ↦ (h.controls x hx).trans (Nat.lt_add_of_pos_right Nat.two_pos)
    refine (hR.create none (r := d) ⟨rfl, rfl, hlt, .inl rfl, by simp [d], by simp⟩).create
      (some .queued) (r := r) ⟨rfl, rfl, by simp [r], .inr ⟨rfl, by simp [r]⟩, fun d' hd' ↦ ?_, by simp [r]⟩
    -- The dependent task is new, so nothing else refers to it.
    obtain rfl : s.count = d' := TaskKind.registration.inj hd'
    refine ⟨rfl, by simp [d], by simp [d], ?_, fun ⟨role, hrole⟩ ↦ ?_⟩
    · by_contra hne
      obtain ⟨x, hx, hin⟩ := exists_of_outstanding hne
      rcases Nat.lt_succ_iff_lt_or_eq.mp hx with hx | rfl
      · simp only [update_of_ne (Nat.ne_of_lt hx)] at hin
        exact Nat.lt_irrefl _ (hR.dependents x hx _ hin).1
      · simp [d] at hin
    · exact Nat.lt_irrefl _ (hR.role _ hrole).1
  | wait futures =>
    refine h.create ht hst (some (.registering futures)) (fun R hR ↦ ?_) rfl (.cons trivial (.cons trivial (.refl _ _)))
      fun x hx ↦ (h.controls x hx).trans (Nat.lt_succ_self _)
    exact ⟨rfl, rfl, hlt, .inl rfl, by simp, by simp⟩
  | pushControl x futures =>
    obtain ⟨R, hok⟩ := h.entry ht hst
    have hx : (s.future x).status = .constructing := (hok.role _ mem_cons_self).2.1
    exact h.of_update ht hst [(x, .registering futures)] (by simp [hx]) rfl
      (fun R hR ↦ hR.prioritize) (fun _ ↦ .cons trivial (.refl _ _)) (refl _)

/-- A step of the frame that leaves the futures and the deque. -/
theorem Inv.moveOn (h : Inv n s) (ht : t < n) (hst : s.thread t = f :: fs)
    (hroles : stackRoles stack = frameRoles f ++ stackRoles fs) (hframes : s.Keeps fs stack) :
    Inv n (s.setStack t stack) :=
  h.of_stack ht hst hroles hframes rfl

theorem Keeps.returnFalse (h : ∀ f ∈ fs, s.FrameOk f) : s.Keeps fs (returnFalse fs) :=
  fun g hg ↦ .inr (frameOk_returnFalse h g hg)

/-- The frames below are right. -/
theorem Inv.frames_tail (h : Inv n s) (ht : t < n) (hst : s.thread t = f :: fs) :
    ∀ f ∈ fs, s.FrameOk f := fun g hg ↦ h.frames t ht g (hst ▸ mem_cons_of_mem _ hg)

theorem Inv.waitLoop (h : Inv n s) (ht : t < n) {rest futures : List Nat} {flag : Bool}
    (hst : s.thread t = .wait rest flag futures :: fs) :
    Inv n (s.waitLoop t flag futures fs rest) := by
  have hlt : ∀ p ∈ futures, p < s.count :=
    h.frames t ht (.wait rest flag futures) (hst ▸ mem_cons_self)
  unfold CallbackQueue.waitLoop
  split
  · split
    · exact h.moveOn ht hst rfl (.cons (fun p hp ↦ ⟨hlt p hp, .inl hp⟩) (.refl _ _))
    · exact h.moveOn ht hst rfl (.refl _ _)
  · split
    · exact h.moveOn ht hst rfl (.cons hlt (.refl _ _))
    · exact h.moveOn ht hst rfl (.cons trivial (.cons hlt (.refl _ _)))
    · exact h.moveOn ht hst rfl (.cons hlt (.refl _ _))

theorem Inv.tryInvokeLock (h : Inv n s) (ht : t < n) (hst : s.thread t = .tryInvokeLock x :: fs)
    (hs : s.tryInvokeLock n t x fs = some s') : Inv n s' := by
  obtain ⟨-, rfl⟩ := ite_some_iff.mp hs
  refine h.of_stack ht hst ?_ ?_ (queueRoles_popFrontNullptr _)
  · split
    · exact stackRoles_returnFalse fs
    · rfl
  · split
    · exact .returnFalse (h.frames_tail ht hst)
    · exact .cons trivial (.refl _ _)

/-- A hole takes one task out of the deque. -/
theorem queueRoles_set {i : Nat} (hq : q[i]? = some (some x)) :
    (queueRoles q).Perm ((x, .queued) :: queueRoles (q.set i none)) := by
  induction q generalizing i with
  | nil => cases hq
  | cons a q ih =>
    cases i with
    | zero =>
      obtain rfl : a = some x := some.inj hq
      rw [queueRoles_some, set_cons_zero, queueRoles_none]
    | succ i =>
      have hperm := ih (getElem?_cons_succ.symm.trans hq)
      cases a with
      | none => exact hperm
      | some y => exact (hperm.cons _).trans (List.Perm.swap ..)

theorem queueRoles_takeAt {i : Nat} (hq : q[i]? = some (some x)) :
    (queueRoles q).Perm ((x, .queued) :: queueRoles (takeAt q i)) := by
  unfold takeAt
  split
  next hi =>
    rw [hi] at hq
    cases q with
    | nil => cases hq
    | cons a q =>
      obtain rfl : a = some x := some.inj hq
      rw [queueRoles_some, tail_cons, queueRoles_popFrontNullptr]
  · exact queueRoles_set hq

theorem Inv.tryInvokeLocked (h : Inv n s) (ht : t < n)
    (hst : s.thread t = .tryInvokeLocked x :: fs) (hs : s.tryInvokeLocked n t x fs = some s') :
    Inv n s' := by
  simp only [CallbackQueue.tryInvokeLocked, ite_none_right_eq_some] at hs
  obtain ⟨-, hs⟩ := hs
  split at hs
  next hfound =>
    obtain ⟨hx, -, -, hq⟩ := hfound
    cases hs
    refine h.of_update ht hst [(x, .invoking)] (by simp [hx]) rfl (fun R hR ↦ ?_)
      (fun _ ↦ .cons trivial (.refl _ _)) (refl _)
    have hperm := (queueRoles_takeAt hq).append_right R
    exact Ok.take (hR.perm hperm)
  · cases hs
    exact h.moveOn ht hst (stackRoles_returnFalse fs) (.returnFalse (h.frames_tail ht hst))

theorem Inv.register (h : Inv n s) (ht : t < n) {d : Nat}
    (hst : s.thread t = .register d rest :: fs) (hs : s.register n t d fs rest = some s') :
    Inv n s' := by
  cases rest with
  | cons p rest =>
    cases hs
    split
    next hp =>
      exact h.of_entry ht hst [(d, .registering rest)] rfl rfl (fun R hR ↦ hR.skip hp)
        (fun _ _ hp ↦ hp) le_rfl (.cons trivial (.refl _ _)) h.controls
    · exact h.moveOn ht hst rfl (.cons trivial (.refl _ _))
  | nil =>
    obtain ⟨-, hs⟩ := ite_none_right_eq_some.mp hs
    obtain ⟨R, hok⟩ := h.entry ht hst
    have hd : (s.future d).status = .constructing := (hok.role _ mem_cons_self).2.1.status
    split at hs
    next hz =>
      cases hs
      exact h.of_update ht hst [(d, .invoking)] (by simp [hd]) rfl
        (fun R hR ↦ hR.runRegistered hz) (fun _ ↦ .cons trivial (.refl _ _)) (refl _)
    next hz =>
      cases hs
      exact h.of_update ht hst [] (by simp [hd]) rfl (fun R hR ↦ hR.hold hz)
        (fun _ ↦ .refl _ _) (refl _)

theorem Inv.registerLock (h : Inv n s) (ht : t < n) {d p : Nat}
    (hst : s.thread t = .registerLock d p rest :: fs)
    (hs : s.registerLock n t d p rest fs = some s') : Inv n s' := by
  obtain ⟨-, hs⟩ := ite_none_right_eq_some.mp hs
  split at hs
  next hp =>
    cases hs
    exact h.of_entry ht hst [(d, .registering rest)] rfl rfl (fun R hR ↦ hR.skip hp)
      (fun _ _ hp ↦ hp) le_rfl (.cons trivial (.refl _ _)) h.controls
  next hp =>
    cases hs
    exact h.of_update ht hst [(d, .adding rest)] hp rfl (fun R hR ↦ hR.registerAt hp)
      (fun _ ↦ .cons trivial (.refl _ _)) (refl _)

theorem Inv.registerAdd (h : Inv n s) (ht : t < n) {d : Nat}
    (hst : s.thread t = .registerAdd d rest :: fs) :
    Inv n ((s.setFuture d { s.future d with remaining := (s.future d).remaining + 1 }).setStack t
      (.register d rest :: fs)) := by
  obtain ⟨R, hok⟩ := h.entry ht hst
  have hd : (s.future d).status = .constructing := (hok.role _ mem_cons_self).2.1.status
  exact h.of_update ht hst [(d, .registering rest)] (by simp [hd]) rfl (fun R hR ↦ hR.addOne)
    (fun _ ↦ .cons trivial (.refl _ _)) (refl _)

theorem Inv.enter (h : Inv n s) (ht : t < n) (hst : s.thread t = .invoke x :: fs)
    (hs : s.enter n t x fs = some s') : Inv n s' := by
  obtain ⟨-, rfl⟩ := ite_some_iff.mp hs
  refine h.of_entry ht hst (registrationRoles s.future x ++ [(x, .inBody)]) rfl ?_ (fun R hR ↦ ?_)
    (fun _ _ hp ↦ hp) le_rfl ?_ h.controls
  · unfold registrationRoles
    cases (s.future x).kind <;> rfl
  · rw [append_assoc]
    exact hR.enter
  · split
    · exact .cons trivial (.cons trivial (.refl _ _))
    · exact .cons trivial (.refl _ _)

theorem Inv.finish (h : Inv n s) (ht : t < n) (hst : s.thread t = .body x :: fs)
    (hs : s.finish n t x fs = some s') : Inv n s' := by
  obtain ⟨-, rfl⟩ := ite_some_iff.mp hs
  obtain ⟨R, hok⟩ := h.entry ht hst
  have hx : (s.future x).status = .running := (hok.role _ mem_cons_self).2.1
  refine h.of_update ht hst [(x, .signalling)] (by simp [hx]) rfl (fun R hR ↦ hR.return)
    (fun _ ↦ .cons trivial (.refl _ _)) ?_
  split
  · exact filter_subset_self _
  · exact refl _

theorem Inv.launch (h : Inv n s) (ht : t < n) {ds : List Nat}
    (hst : s.thread t = .launch ds :: fs) (hs : s.launch n t ds fs = some s') : Inv n s' := by
  obtain ⟨-, rfl⟩ := ite_some_iff.mp hs
  refine h.of_stack ht hst rfl ?_ (queueRoles_popFrontNullptr _)
  exact .cons trivial (.refl _ _)

theorem Inv.launching (h : Inv n s) (ht : t < n) {index : Int} {ds : List Nat}
    (hst : s.thread t = .launching index ds :: fs) (hs : s.launching n t index fs ds = some s') :
    Inv n s' := by
  cases ds with
  | nil =>
    cases hs
    exact h.moveOn ht hst rfl (.refl _ _)
  | cons d ds =>
    obtain ⟨-, rfl⟩ := ite_some_iff.mp hs
    obtain ⟨R, hok⟩ := h.entry ht hst
    have hd : (s.future d).status = .onHold := (hok.role _ mem_cons_self).2.1
    refine h.of_update ht hst (frameRoles (.launching (index - 1) ds)) (by simp [hd]) rfl
      (fun R hR ↦ ?_) (fun _ ↦ .cons trivial (.refl _ _)) (refl _)
    exact (hR.enqueue (index - 1)).perm perm_middle.symm

theorem Inv.signalling (h : Inv n s) (ht : t < n) {launch : List Nat}
    (hst : s.thread t = .signalling x launch :: fs)
    (hs : s.signalling n t x launch fs = some s') : Inv n s' := by
  obtain ⟨R, hok⟩ := h.entry ht hst
  obtain ⟨hx, hready⟩ := hok.role _ mem_cons_self
  unfold CallbackQueue.signalling at hs
  split at hs
  next hdeps =>
    cases hs
    refine h.of_entry ht hst (launch.map fun d ↦ (d, .toLaunch)) rfl ?_
      (fun R hR ↦ hR.release hdeps) (fun _ _ hp ↦ hp) le_rfl ?_ h.controls
    · split
      next hnil => rw [hnil]; rfl
      · rfl
    · split
      · exact .refl _ _
      · exact .cons trivial (.refl _ _)
  next d ds hdeps =>
    simp only [ite_none_right_eq_some] at hs
    obtain ⟨-, hs⟩ := hs
    obtain ⟨hd, hxd, hds⟩ := hok.dependents x hx d (by simp [hdeps])
    have hne : d ≠ x := Nat.ne_of_gt (hok.priors d hd x hxd)
    -- The futures after the dependent is counted down.
    generalize hg : (s.countDown x d ds).future = g
    have hgd : g d = { s.future d with remaining := (s.future d).remaining - 1 } := by
      rw [← hg]
      simp [countDown, setFuture, update_of_ne hne]
    have hgx : g x = { s.future x with dependents := ds } := by
      rw [← hg]
      simp [countDown, setFuture, update_of_ne hne.symm]
    have hother : ∀ y, y ≠ x → y ≠ d → g y = s.future y := fun y hyx hyd ↦ by
      rw [← hg]
      simp [countDown, setFuture, update_of_ne hyx, update_of_ne hyd]
    have hstate : s.countDown x d ds = { s with future := g } := by rw [← hg]; rfl
    rw [hstate] at hs
    have hcount : ∀ R, Ok ⟨s.future, s.count, s.entered, R⟩ →
        Ok ⟨g, s.count, s.entered, (if (g d).status = .onHold ∧ (g d).remaining = 0 then
          [(d, .toLaunch)] else []) ++ R⟩ := fun R hR ↦
      hR.countDown hx hready hdeps hgx hgd hother
    have hkeep : ∀ p, (s.future p).status = .ready → (g p).status = .ready := by
      intro p hp
      by_cases hpx : p = x
      · rw [hpx, hgx]
        exact hready
      · by_cases hpd : p = d
        · rw [hpd, hgd]
          exact hpd ▸ hp
        · rwa [hother p hpx hpd]
    split at hs
    next hlast =>
      have hlast : (g d).status = .onHold ∧ (g d).remaining = 0 := hlast
      have hcount' : ∀ R, Ok ⟨s.future, s.count, s.entered, R⟩ →
          Ok ⟨g, s.count, s.entered, (d, .toLaunch) :: R⟩ := fun R hR ↦ by
        have := hcount R hR
        rwa [if_pos hlast] at this
      split at hs
      · cases hs
        refine h.of_entry ht hst ((d, .invoking) :: frameRoles (.signalling x launch)) rfl rfl
          (fun R hR ↦ (hcount' _ hR).takeLaunch) (fun p _ hp ↦ ?_) le_rfl
          (.cons trivial (.cons trivial (.refl _ _))) h.controls
        exact ready_update (by simp [hlast.1]) p (hkeep p hp)
      · cases hs
        refine h.of_entry ht hst (frameRoles (.signalling x (launch ++ [d]))) rfl rfl
          (fun R hR ↦ (hcount' _ hR).perm ?_) (fun p _ hp ↦ hkeep p hp) le_rfl
          (.cons trivial (.refl _ _)) h.controls
        simp only [frameRoles, map_append, cons_append, append_assoc]
        exact (List.Perm.swap ..).trans (perm_middle.symm.cons _)
    next hlast =>
      cases hs
      refine h.of_entry ht hst (frameRoles (.signalling x launch)) rfl rfl (fun R hR ↦ ?_)
        (fun p _ hp ↦ hkeep p hp) le_rfl (.cons trivial (.refl _ _)) h.controls
      have := hcount _ hR
      rwa [if_neg hlast] at this

/-- The next step of the innermost frame. -/
theorem Inv.advance (h : Inv n s) (ht : t < n) (hst : s.thread t = f :: fs)
    (hs : s.advance n t fs f = some s') : Inv n s' := by
  cases f with
  | client | body _ => cases hs
  | loop => exact h.pop ht hst hs
  | push x => exact h.pushBack ht hst hs
  | pushFront x => exact h.pushFront ht hst hs
  | mustWait rest use =>
    cases rest with
    | nil => exact h.mustNotWait ht hst hs
    | cons p rest =>
      cases hs
      split
      next hp =>
        have hframe := h.frames t ht (.mustWait (p :: rest) use) (hst ▸ mem_cons_self)
        refine h.moveOn ht hst ?_ (.cons (fun q hq ↦ ?_) (.refl _ _))
        · cases use <;> rfl
        · obtain ⟨hlt, hin⟩ := hframe q hq
          refine ⟨hlt, hin.elim (fun hin ↦ ?_) .inr⟩
          rcases mem_cons.mp hin with rfl | hin
          · exact .inr hp
          · exact .inl hin
      · exact h.mustDoWait ht hst
  | wait rest flag futures =>
    cases hs
    exact h.waitLoop ht hst
  | tryInvoke x =>
    cases hs
    split
    · exact h.moveOn ht hst rfl (.cons trivial (.refl _ _))
    · exact h.moveOn ht hst (stackRoles_returnFalse fs) (.returnFalse (h.frames_tail ht hst))
  | tryInvokeLock x => exact h.tryInvokeLock ht hst hs
  | tryInvokeLocked x => exact h.tryInvokeLocked ht hst hs
  | register d rest => exact h.register ht hst hs
  | registerLock d p rest => exact h.registerLock ht hst hs
  | registerAdd d rest =>
    cases hs
    exact h.registerAdd ht hst
  | blocked x =>
    obtain ⟨-, rfl⟩ := ite_some_iff.mp hs
    exact h.moveOn ht hst rfl (.refl _ _)
  | invoke x => exact h.enter ht hst hs
  | signal x =>
    obtain ⟨-, rfl⟩ := ite_some_iff.mp hs
    exact h.moveOn ht hst rfl (.cons trivial (.refl _ _))
  | signalling x launch => exact h.signalling ht hst hs
  | launch ds => exact h.launch ht hst hs
  | launching index ds => exact h.launching ht hst hs

/-- A thread calls the queue. -/
theorem lt_of_areUserFutures {futures : List Nat} (h : s.areUserFutures futures = true) :
    ∀ p ∈ futures, p < s.count := by
  intro p hp
  have := all_eq_true.mp h p hp
  simp only [Bool.and_eq_true, decide_eq_true_eq] at this
  exact this.1

theorem Inv.step (h : Inv n s) {l : QueueStep} (hs : s.step n l = some s') : Inv n s' := by
  obtain ⟨t, action⟩ := l
  obtain ⟨ht, hs⟩ := ite_none_right_eq_some.mp hs
  split at hs
  · cases hs
  next f fs hst =>
    have hframe : s.FrameOk f := h.frames t ht f (hst ▸ mem_cons_self)
    have hcontrols : ∀ x ∈ s.controlFutures, x < s.count + 1 := fun x hx ↦
      (h.controls x hx).trans (Nat.lt_succ_self _)
    have hcreate : ∀ r stack, ((s.create r).setStack t stack).FrameOk f := fun r stack ↦
      hframe.mono (Nat.le_succ _) fun p hp hready ↦
        (congrArg SharedFuture.status (update_of_ne (Nat.ne_of_lt hp) ..)).trans hready
    cases action with
    | advance => exact h.advance ht hst hs
    | push returnsValue =>
      obtain ⟨-, rfl⟩ := ite_some_iff.mp hs
      refine h.create ht hst (some .queued) (fun R hR ↦ ?_) rfl
        (.cons trivial (.cons (hcreate _ _) (.refl _ _))) hcontrols
      exact ⟨rfl, rfl, by simp, .inr ⟨rfl, by simp⟩, by simp, by simp⟩
    | pushDependent priors returnsValue =>
      obtain ⟨⟨-, hpriors⟩, rfl⟩ := ite_some_iff.mp hs
      have hlt := lt_of_areUserFutures hpriors
      exact h.moveOn ht hst rfl (.cons (fun p hp ↦ ⟨hlt p hp, .inl hp⟩) (.cons hframe (.refl _ _)))
    | wait futures =>
      obtain ⟨⟨-, hfutures⟩, rfl⟩ := ite_some_iff.mp hs
      exact h.moveOn ht hst rfl (.cons (lt_of_areUserFutures hfutures) (.cons hframe (.refl _ _)))
    | pushControl =>
      obtain ⟨-, rfl⟩ := ite_some_iff.mp hs
      refine h.create ht hst (some (.preparing s.controlFutures)) (fun R hR ↦ ?_) rfl
        (.cons (fun p hp ↦ ⟨hcontrols p hp, .inl hp⟩) (.cons (hcreate _ _) (.refl _ _)))
        fun x hx ↦ ?_
      · exact ⟨rfl, rfl, h.controls, .inl rfl, by simp, by simp⟩
      · rcases mem_append.mp hx with hx | hx
        · exact hcontrols x hx
        · rw [mem_singleton.mp hx]
          exact Nat.lt_succ_self _
    | finish =>
      cases f with
      | body x => exact h.finish ht hst hs
      | _ => cases hs

end CallbackQueue
end Hisab.Parallel
