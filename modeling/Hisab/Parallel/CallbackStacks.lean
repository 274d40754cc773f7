import Hisab.Parallel.CallbackIndex

/-!
# What the frames of a stack lock

Which frames can lie below which, when the bodies of tasks call nothing of the queue but
`push`. Then a thread that waits for a lock holds at most one other, and which one its
topmost frames say.
-/

namespace Hisab.Parallel.CallbackQueue

open Base Function List CallbackQueue List.Subset

/-- The bodies of tasks call only `push`. -/
def bodiesOnlyPush (s : CallbackQueue) (l : QueueStep) : Bool :=
  match l.action, s.thread l.thread with
  | .pushDependent _ _, .body _ :: _ | .wait _, .body _ :: _ | .pushControl, .body _ :: _ => false
  | _, _ => true

/-- A frame that no other frame is above of. -/
def isOnTop : QueueFrame → Bool
  | .push _ | .tryInvokeLocked _ => true
  | _ => false

/-- A future of a task that was pushed. -/
def IsUser (s : CallbackQueue) (x : Nat) : Prop := x < s.count ∧ (s.future x).kind = .user

/-- The frame holds no lock. -/
def LocksNothing (s : CallbackQueue) : QueueFrame → Prop
  | .body x => x < s.count ∧ (s.future x).returnsValue = false
  | .signalling _ _ | .pushFront _ | .tryInvokeLocked _ | .launching _ _ => False
  | _ => True

/-- None of the frames holds a lock, nor would have to be on top. -/
def Unlocked (s : CallbackQueue) (fs : List QueueFrame) : Prop :=
  ∀ f ∈ fs, s.LocksNothing f ∧ isOnTop f = false

/-- The futures that a call of `must_wait` is about are of the right kind. -/
def UseOk (s : CallbackQueue) : MustWaitUse → Prop
  | .pushDependent futures _ | .wait futures => ∀ p ∈ futures, s.IsUser p
  | .pushControl x _ => x < s.count ∧ (s.future x).kind = .control

/-- A frame with the frames below it. Only a high-priority task is called under the lock of
another future, and such a task launches nothing. -/
def FrameAt (s : CallbackQueue) (f : QueueFrame) (fs : List QueueFrame) : Prop :=
  (∀ g ∈ fs, isOnTop g = false) ∧ match f with
    | .loop | .client | .blocked _ | .launch _ | .launching _ _ => s.Unlocked fs
    | .push _ => s.Unlocked fs ∨ ∃ x gs, fs = .body x :: gs ∧ s.IsUser x
    | .pushFront x => (x < s.count ∧ (s.future x).kind = .control) ∧ s.Unlocked fs
    | .mustWait _ use => s.UseOk use ∧ s.Unlocked fs
    | .wait rest _ futures => ((∀ p ∈ rest, s.IsUser p) ∧ ∀ p ∈ futures, s.IsUser p) ∧ s.Unlocked fs
    | .tryInvoke x | .tryInvokeLock x | .tryInvokeLocked x => s.IsUser x ∧ s.Unlocked fs
    | .register d _ | .registerLock d _ _ | .registerAdd d _ =>
      (d < s.count ∧ ((s.future d).kind = .control → (s.future d).isHighPriority = true)) ∧
        s.Unlocked fs
    | .invoke x | .body x | .signal x =>
      x < s.count ∧ (s.Unlocked fs ∨ (s.future x).isHighPriority = true)
    | .signalling x ds =>
      x < s.count ∧ (s.Unlocked fs ∨ (s.future x).isHighPriority = true ∧ ds = [])

/-- Every frame of the stack is right where it is. -/
def StackOk (s : CallbackQueue) : List QueueFrame → Prop
  | [] => True
  | f :: fs => s.FrameAt f fs ∧ s.StackOk fs

/-- What the kinds of futures say about the rest of them. -/
structure KindsOk (s : CallbackQueue) : Prop where
  returnsValue : ∀ x < s.count, (s.future x).kind ≠ .user → (s.future x).returnsValue = false
  isHighPriority : ∀ x < s.count, (s.future x).isHighPriority = true →
    (s.future x).kind = .control ∨ (s.future x).kind = .empty
  priors : ∀ d < s.count, ∀ p ∈ (s.future d).priors, p < s.count ∧
    ((s.future p).kind = .user ∨ (s.future p).kind = .control ∧ (s.future d).kind = .control)
  dependents : ∀ p < s.count, ∀ d ∈ (s.future p).dependents, d < s.count ∧
    ((s.future d).kind = .control → (s.future d).isHighPriority = true)
  registration : ∀ r < s.count, ∀ d, (s.future r).kind = .registration d →
    d < s.count ∧ (s.future d).kind ≠ .control
  controls : ∀ x ∈ s.controlFutures, x < s.count ∧ (s.future x).kind = .control

/-- What holds in every state while bodies only push. -/
structure StacksOk (n : Nat) (s : CallbackQueue) : Prop where
  kinds : s.KindsOk
  frames : ∀ t < n, s.StackOk (s.thread t)

/-- The futures of `s` are those of `s'`, but for their progress. -/
structure Extends (s s' : CallbackQueue) : Prop where
  count : s.count ≤ s'.count
  kind : ∀ x < s.count, (s'.future x).kind = (s.future x).kind
  returnsValue : ∀ x < s.count, (s'.future x).returnsValue = (s.future x).returnsValue
  isHighPriority : ∀ x < s.count, (s.future x).isHighPriority = true →
    (s'.future x).isHighPriority = true

variable {n t x : Nat} {s s' : CallbackQueue} {f : QueueFrame} {fs stack : List QueueFrame}
  {r : SharedFuture}

/-! ## Later states -/

theorem IsUser.mono (h : s.IsUser x) (he : s.Extends s') : s'.IsUser x :=
  ⟨h.1.trans_le he.count, (he.kind x h.1).trans h.2⟩

theorem Unlocked.mono (h : s.Unlocked fs) (he : s.Extends s') : s'.Unlocked fs := by
  intro f hf
  obtain ⟨hlocks, htop⟩ := h f hf
  refine ⟨?_, htop⟩
  cases f with
  | body x => exact ⟨hlocks.1.trans_le he.count, (he.returnsValue x hlocks.1).trans hlocks.2⟩
  | _ => exact hlocks

theorem UseOk.mono {use : MustWaitUse} (h : s.UseOk use) (he : s.Extends s') : s'.UseOk use := by
  cases use with
  | pushDependent futures _ | wait futures => exact fun p hp ↦ (h p hp).mono he
  | pushControl x _ => exact ⟨h.1.trans_le he.count, (he.kind x h.1).trans h.2⟩

theorem FrameAt.mono (h : s.FrameAt f fs) (he : s.Extends s') : s'.FrameAt f fs := by
  obtain ⟨htop, h⟩ := h
  refine ⟨htop, ?_⟩
  cases f with
  | loop | client | blocked _ | launch _ | launching _ _ => exact Unlocked.mono h he
  | push w =>
    refine h.imp (·.mono he) ?_
    rintro ⟨x, gs, hfs, hx⟩
    exact ⟨x, gs, hfs, hx.mono he⟩
  | pushFront x => exact ⟨⟨h.1.1.trans_le he.count, (he.kind x h.1.1).trans h.1.2⟩, h.2.mono he⟩
  | mustWait rest use => exact ⟨h.1.mono he, h.2.mono he⟩
  | wait rest flag futures =>
    exact ⟨⟨fun p hp ↦ (h.1.1 p hp).mono he, fun p hp ↦ (h.1.2 p hp).mono he⟩, h.2.mono he⟩
  | tryInvoke x | tryInvokeLock x | tryInvokeLocked x => exact ⟨h.1.mono he, h.2.mono he⟩
  | register d _ | registerLock d _ _ | registerAdd d _ =>
    refine ⟨⟨h.1.1.trans_le he.count, fun hkind ↦ ?_⟩, h.2.mono he⟩
    rw [he.kind d h.1.1] at hkind
    exact he.isHighPriority d h.1.1 (h.1.2 hkind)
  | invoke x | body x | signal x =>
    exact ⟨h.1.trans_le he.count, h.2.imp (·.mono he) (he.isHighPriority x h.1)⟩
  | signalling x ds =>
    exact ⟨h.1.trans_le he.count, h.2.imp (·.mono he) (And.imp_left (he.isHighPriority x h.1))⟩

theorem StackOk.mono (h : s.StackOk stack) (he : s.Extends s') : s'.StackOk stack := by
  induction stack with
  | nil => trivial
  | cons f fs ih => exact ⟨h.1.mono he, ih h.2⟩

theorem Extends.refl (s : CallbackQueue) : s.Extends s :=
  ⟨le_rfl, fun _ _ ↦ rfl, fun _ _ ↦ rfl, fun _ _ h ↦ h⟩

theorem Extends.create (s : CallbackQueue) (r : SharedFuture) : s.Extends (s.create r) := by
  have hsame : ∀ x < s.count, (s.create r).future x = s.future x := fun x hx ↦
    update_of_ne (Nat.ne_of_lt hx) ..
  exact ⟨Nat.le_succ _, fun x hx ↦ by rw [hsame x hx], fun x hx ↦ by rw [hsame x hx],
    fun x hx h ↦ by rwa [hsame x hx]⟩

theorem Extends.trans {s'' : CallbackQueue} (h : s.Extends s') (h' : s'.Extends s'') :
    s.Extends s'' where
  count := h.count.trans h'.count
  kind x hx := (h'.kind x (hx.trans_le h.count)).trans (h.kind x hx)
  returnsValue x hx := (h'.returnsValue x (hx.trans_le h.count)).trans (h.returnsValue x hx)
  isHighPriority x hx hhigh := h'.isHighPriority x (hx.trans_le h.count) (h.isHighPriority x hx hhigh)

/-- The two states have the same futures, but for statuses, counters, indices and dependents
that were dropped. -/
structure SameKinds (s s' : CallbackQueue) : Prop where
  count : s'.count = s.count
  kind : ∀ x, (s'.future x).kind = (s.future x).kind
  returnsValue : ∀ x, (s'.future x).returnsValue = (s.future x).returnsValue
  priors : ∀ x, (s'.future x).priors = (s.future x).priors
  isHighPriority : ∀ x, (s'.future x).isHighPriority = (s.future x).isHighPriority
  dependents : ∀ x, (s'.future x).dependents ⊆ (s.future x).dependents
  controls : s'.controlFutures ⊆ s.controlFutures

theorem SameKinds.extends (h : s.SameKinds s') : s.Extends s' :=
  ⟨h.count.ge, fun x _ ↦ h.kind x, fun x _ ↦ h.returnsValue x,
    fun x _ hx ↦ (h.isHighPriority x).trans hx⟩

theorem KindsOk.same (h : s.KindsOk) (hs : s.SameKinds s') : s'.KindsOk where
  returnsValue x hx := by
    rw [hs.kind, hs.returnsValue]
    exact h.returnsValue x (hs.count ▸ hx)
  isHighPriority x hx := by
    rw [hs.kind, hs.isHighPriority]
    exact h.isHighPriority x (hs.count ▸ hx)
  priors d hd p hp := by
    rw [hs.kind, hs.kind, hs.count]
    exact h.priors d (hs.count ▸ hd) p (hs.priors d ▸ hp)
  dependents p hp d hd := by
    rw [hs.kind, hs.isHighPriority, hs.count]
    exact h.dependents p (hs.count ▸ hp) d (hs.dependents p hd)
  registration r hr d := by
    rw [hs.kind, hs.kind, hs.count]
    exact h.registration r (hs.count ▸ hr) d
  controls x hx := by
    rw [hs.kind, hs.count]
    exact h.controls x (hs.controls hx)

theorem SameKinds.of_eq (hfuture : s'.future = s.future) (hcount : s'.count = s.count)
    (hcontrols : s'.controlFutures = s.controlFutures) : s.SameKinds s' := by
  refine ⟨hcount, fun _ ↦ ?_, fun _ ↦ ?_, fun _ ↦ ?_, fun _ ↦ ?_, fun _ ↦ ?_, ?_⟩ <;>
    simp [hfuture, hcontrols]

theorem SameKinds.trans {s'' : CallbackQueue} (h : s.SameKinds s') (h' : s'.SameKinds s'') :
    s.SameKinds s'' where
  count := h'.count.trans h.count
  kind x := (h'.kind x).trans (h.kind x)
  returnsValue x := (h'.returnsValue x).trans (h.returnsValue x)
  priors x := (h'.priors x).trans (h.priors x)
  isHighPriority x := (h'.isHighPriority x).trans (h.isHighPriority x)
  dependents x := List.Subset.trans (h'.dependents x) (h.dependents x)
  controls := List.Subset.trans h'.controls h.controls

theorem SameKinds.of_update (hfuture : s'.future = update s.future x r)
    (hcount : s'.count = s.count) (hcontrols : s'.controlFutures ⊆ s.controlFutures)
    (hkind : r.kind = (s.future x).kind) (hreturns : r.returnsValue = (s.future x).returnsValue)
    (hpriors : r.priors = (s.future x).priors)
    (hhigh : r.isHighPriority = (s.future x).isHighPriority)
    (hdeps : r.dependents ⊆ (s.future x).dependents) : s.SameKinds s' := by
  have hcases : ∀ y, s'.future y = s.future y ∨ y = x ∧ s'.future y = r := by
    intro y
    by_cases hy : y = x
    · exact .inr ⟨hy, by rw [hfuture, hy, update_self]⟩
    · exact .inl (by rw [hfuture, update_of_ne hy])
  refine ⟨hcount, fun y ↦ ?_, fun y ↦ ?_, fun y ↦ ?_, fun y ↦ ?_, fun y ↦ ?_, hcontrols⟩ <;>
    rcases hcases y with h | ⟨rfl, h⟩ <;> rw [h] <;> first | assumption | exact refl _

/-- The status, the counter or the index of a future changes. -/
theorem SameKinds.progress (hfuture : s'.future = update s.future x r)
    (hcount : s'.count = s.count) (hcontrols : s'.controlFutures ⊆ s.controlFutures)
    (hr : r = { s.future x with status := r.status, remaining := r.remaining, invokerIndex := r.invokerIndex })
    :
    s.SameKinds s' := by
  refine .of_update hfuture hcount hcontrols ?_ ?_ ?_ ?_ ?_ <;> rw [hr]
  exact refl _

/-- A dependent is dropped from the list of a future that has it. -/
theorem SameKinds.countDown {d : Nat} {ds : List Nat} (hdeps : (s.future x).dependents = d :: ds) :
    s.SameKinds (s.countDown x d ds) := by
  have hx : s.SameKinds (s.setFuture x { s.future x with dependents := ds }) :=
    .of_update rfl rfl (refl _) rfl rfl rfl rfl (hdeps ▸ subset_cons_self d ds)
  exact hx.trans (.progress rfl rfl (refl _) rfl)

/-! ## A step of one thread -/

/-- No task was found by `try_invoke` under `mutex_`, and no task that returns a value has a
`push` under way. -/
def PlainTop (s : CallbackQueue) : List QueueFrame → Prop
  | .tryInvokeLocked _ :: _ => False
  | .push _ :: fs => s.Unlocked fs
  | _ => True

/-- What a step of a thread with the stack `old` makes of the stacks: a plain top, or it is the
step of `try_invoke` that finds a queue with tasks, or a body that calls `push`. -/
structure Moves (s : CallbackQueue) (l : QueueStep) (s' : CallbackQueue) : Prop where
  kinds : s'.KindsOk
  later : s.Extends s'
  stack : ∃ stack, s'.thread = update s.thread l.thread stack ∧ s'.StackOk stack ∧
    (s'.PlainTop stack ∨ (∃ x fs, s.thread l.thread = .tryInvokeLock x :: fs ∧ l.action = .advance ∧
        popFrontNullptr s.invokerQueue ≠ [] ∧ stack = .tryInvokeLocked x :: fs) ∨
      ∃ w x fs, s.thread l.thread = .body x :: fs ∧ (∃ r, l.action = .push r) ∧
        stack = .push w :: .body x :: fs)

/-- The frames below one that no lock is held by do not need to be on top. -/
theorem Unlocked.onTop (h : s.Unlocked fs) : ∀ g ∈ fs, isOnTop g = false := fun g hg ↦ (h g hg).2

theorem Unlocked.cons (hlocks : s.LocksNothing f) (htop : isOnTop f = false)
    (h : s.Unlocked fs) : s.Unlocked (f :: fs) := by
  intro g hg
  rcases mem_cons.mp hg with rfl | hg
  · exact ⟨hlocks, htop⟩
  · exact h g hg

theorem plainTop_of_onTop (h : ∀ g ∈ fs, isOnTop g = false) : s.PlainTop fs := by
  cases fs with
  | nil => trivial
  | cons f fs =>
    have hf := h f mem_cons_self
    cases f with
    | push _ | tryInvokeLocked _ => cases hf
    | _ => trivial

theorem StacksOk.of_moves {l : QueueStep} (h : StacksOk n s) (hm : s.Moves l s') :
    StacksOk n s' := by
  obtain ⟨hkinds, hext, stack, hthread, hstack, -⟩ := hm
  refine ⟨hkinds, fun t ht ↦ ?_⟩
  rw [hthread]
  by_cases hl : t = l.thread
  · rw [hl, update_self]
    exact hstack
  · rw [update_of_ne hl]
    exact (h.frames t ht).mono hext

theorem StacksOk.top (h : StacksOk n s) (ht : t < n) (hst : s.thread t = f :: fs) :
    s.FrameAt f fs ∧ s.StackOk fs := by
  have hstack := h.frames t ht
  rwa [hst] at hstack

/-- A step from a stack that is right to one that is, with a plain top. The futures are those
of `u`. -/
theorem StacksOk.moves {u : CallbackQueue} (h : StacksOk n s) (ht : t < n)
    (hst : s.thread t = f :: fs) {action : QueueAction} (hkinds : u.KindsOk)
    (hext : s.Extends u) (hsame : u.SameKinds s')
    (hthread : s'.thread = update s.thread t stack)
    (hstack : s'.FrameAt f fs → s'.StackOk fs → s'.StackOk stack ∧ s'.PlainTop stack) :
    s.Moves ⟨t, action⟩ s' := by
  have hext' := hext.trans hsame.extends
  have hold := (h.frames t ht).mono hext'
  rw [hst] at hold
  obtain ⟨hnew, htop⟩ := hstack hold.1 hold.2
  exact ⟨hkinds.same hsame, hext', stack, hthread, hnew, .inl htop⟩

/-- The same, for a step that leaves the kinds. -/
theorem StacksOk.moves_same (h : StacksOk n s) (ht : t < n) (hst : s.thread t = f :: fs)
    {action : QueueAction} (hsame : s.SameKinds s')
    (hthread : s'.thread = update s.thread t stack)
    (hstack : s'.FrameAt f fs → s'.StackOk fs → s'.StackOk stack ∧ s'.PlainTop stack) :
    s.Moves ⟨t, action⟩ s' :=
  h.moves ht hst h.kinds (.refl s) hsame hthread hstack

/-- A new future. -/
theorem KindsOk.create (h : s.KindsOk) (hreturns : r.kind ≠ .user → r.returnsValue = false)
    (hhigh : r.isHighPriority = true → r.kind = .control ∨ r.kind = .empty)
    (hpriors : ∀ p ∈ r.priors, p < s.count ∧ ((s.future p).kind = .user ∨ (s.future p).kind = .control ∧ r.kind = .control))
    (hdeps : r.dependents = [])
    (hregistration : ∀ d, r.kind = .registration d → d < s.count ∧ (s.future d).kind ≠ .control) :
    (s.create r).KindsOk := by
  have hold : ∀ x < s.count, (s.create r).future x = s.future x := fun x hx ↦
    update_of_ne (Nat.ne_of_lt hx) ..
  have hnew : (s.create r).future s.count = r := update_self ..
  have hcases : ∀ x < (s.create r).count, x < s.count ∨ x = s.count := fun x hx ↦
    Nat.lt_succ_iff_lt_or_eq.mp hx
  have hlt : ∀ x < s.count, x < (s.create r).count := fun x hx ↦ Nat.lt_succ_of_lt hx
  refine ⟨fun x hx ↦ ?_, fun x hx ↦ ?_, fun d hd p hp ↦ ?_, fun p hp d hd ↦ ?_, fun x hx d ↦ ?_,
    fun x hx ↦ ?_⟩
  · rcases hcases x hx with hx | rfl
    · rw [hold x hx]
      exact h.returnsValue x hx
    · rwa [hnew]
  · rcases hcases x hx with hx | rfl
    · rw [hold x hx]
      exact h.isHighPriority x hx
    · rwa [hnew]
  · rcases hcases d hd with hd | rfl
    · rw [hold d hd] at hp ⊢
      obtain ⟨hp, hkind⟩ := h.priors d hd p hp
      exact ⟨hlt p hp, by rwa [hold p hp]⟩
    · rw [hnew] at hp ⊢
      obtain ⟨hp, hkind⟩ := hpriors p hp
      exact ⟨hlt p hp, by rwa [hold p hp]⟩
  · rcases hcases p hp with hp | rfl
    · rw [hold p hp] at hd
      obtain ⟨hd, hkind⟩ := h.dependents p hp d hd
      exact ⟨hlt d hd, by rwa [hold d hd]⟩
    · rw [hnew, hdeps] at hd
      cases hd
  · rcases hcases x hx with hx | rfl
    · rw [hold x hx]
      intro hkind
      obtain ⟨hd, hkind⟩ := h.registration x hx d hkind
      exact ⟨hlt d hd, by rwa [hold d hd]⟩
    · rw [hnew]
      intro hkind
      obtain ⟨hd, hkind⟩ := hregistration d hkind
      exact ⟨hlt d hd, by rwa [hold d hd]⟩
  · obtain ⟨hx, hkind⟩ := h.controls x hx
    exact ⟨hlt x hx, by rwa [hold x hx]⟩

/-- A future gets a dependent or a high priority. -/
theorem KindsOk.setFuture (h : s.KindsOk) (hkind : r.kind = (s.future x).kind)
    (hreturns : r.returnsValue = (s.future x).returnsValue)
    (hpriors : r.priors = (s.future x).priors)
    (hhigh : r.isHighPriority = true → r.kind = .control ∨ r.kind = .empty)
    (hmono : (s.future x).isHighPriority = true → r.isHighPriority = true)
    (hdeps : ∀ d ∈ r.dependents, d < s.count ∧ ((s.future d).kind = .control → (s.future d).isHighPriority = true))
    : (s.setFuture x r).KindsOk ∧ s.Extends (s.setFuture x r) := by
  have hcases : ∀ y, (s.setFuture x r).future y = s.future y ∨
      y = x ∧ (s.setFuture x r).future y = r := by
    intro y
    by_cases hy : y = x
    · exact .inr ⟨hy, by rw [hy]; exact update_self ..⟩
    · exact .inl (update_of_ne hy ..)
  have hkinds : ∀ y, ((s.setFuture x r).future y).kind = (s.future y).kind := by
    intro y
    rcases hcases y with hy | ⟨rfl, hy⟩ <;> rw [hy]
    exact hkind
  have hreturn : ∀ y, ((s.setFuture x r).future y).returnsValue = (s.future y).returnsValue := by
    intro y
    rcases hcases y with hy | ⟨rfl, hy⟩ <;> rw [hy]
    exact hreturns
  have hprior : ∀ y, ((s.setFuture x r).future y).priors = (s.future y).priors := by
    intro y
    rcases hcases y with hy | ⟨rfl, hy⟩ <;> rw [hy]
    exact hpriors
  have hhighs : ∀ y, (s.future y).isHighPriority = true →
      ((s.setFuture x r).future y).isHighPriority = true := by
    intro y
    rcases hcases y with hy | ⟨rfl, hy⟩ <;> rw [hy]
    · exact id
    · exact hmono
  refine ⟨⟨fun y hy ↦ ?_, fun y hy ↦ ?_, fun d hd p hp ↦ ?_, fun p hp d hd ↦ ?_, fun y hy d ↦ ?_,
    fun y hy ↦ ?_⟩, le_rfl, fun y _ ↦ hkinds y, fun y _ ↦ hreturn y, fun y _ ↦ hhighs y⟩
  · rw [hkinds, hreturn]
    exact h.returnsValue y hy
  · rcases hcases y with hr | ⟨rfl, hr⟩ <;> rw [hr]
    · exact h.isHighPriority y hy
    · exact hhigh
  · rw [hkinds, hkinds]
    exact h.priors d hd p (hprior d ▸ hp)
  · rw [hkinds]
    have hd : d < s.count ∧ ((s.future d).kind = .control → (s.future d).isHighPriority = true) := by
      rcases hcases p with hr | ⟨rfl, hr⟩ <;> rw [hr] at hd
      · exact h.dependents p hp d hd
      · exact hdeps d hd
    exact ⟨hd.1, fun hk ↦ hhighs d (hd.2 hk)⟩
  · rw [hkinds, hkinds]
    exact h.registration y hy d
  · rw [hkinds]
    exact h.controls y hy

/-! ## The functions of the queue -/

variable {action : QueueAction}

/-- A step that returns to the frames below. -/
theorem StacksOk.returns (h : StacksOk n s) (ht : t < n) (hst : s.thread t = f :: fs)
    (hsame : s.SameKinds s') (hthread : s'.thread = update s.thread t fs) :
    s.Moves ⟨t, action⟩ s' :=
  h.moves_same ht hst hsame hthread fun hf hfs ↦ ⟨hfs, plainTop_of_onTop hf.1⟩

theorem FrameAt.returnFalse (h : s.StackOk fs) (htop : ∀ g ∈ fs, isOnTop g = false) :
    s.StackOk (returnFalse fs) ∧ s.PlainTop (returnFalse fs) := by
  unfold CallbackQueue.returnFalse
  split
  · exact ⟨h, trivial⟩
  · exact ⟨h, plainTop_of_onTop htop⟩

theorem StacksOk.pop (h : StacksOk n s) (hinv : Inv n s) (ht : t < n)
    (hst : s.thread t = .loop :: fs) (hs : s.pop n t fs = some s') : s.Moves ⟨t, action⟩ s' := by
  obtain ⟨-, hs⟩ := Option.ite_none_right_eq_some.mp hs
  split at hs
  next x q hq =>
    cases hs
    have hrole : (x, FutureRole.queued) ∈ queueRoles s.invokerQueue := by
      rw [← queueRoles_popFrontNullptr, hq]
      exact mem_cons_self
    have hx : x < s.count := (hinv.ledger.role _ (mem_append_left _ hrole)).1
    refine h.moves_same ht hst (.progress rfl rfl (refl _) rfl) rfl fun hf hfs ↦ ?_
    have hlow : Unlocked _ (.loop :: fs) := Unlocked.cons trivial rfl hf.2
    exact ⟨⟨⟨hlow.onTop, hx, .inl hlow⟩, hf, hfs⟩, trivial⟩
  · cases hs
    exact h.returns ht hst (.of_eq rfl rfl rfl) rfl

theorem StacksOk.pushBack (h : StacksOk n s) (ht : t < n) (hst : s.thread t = .push x :: fs)
    (hs : s.pushBack n t x fs = some s') : s.Moves ⟨t, action⟩ s' := by
  obtain ⟨-, rfl⟩ := ite_some_iff.mp hs
  exact h.returns ht hst (.progress rfl rfl (refl _) rfl) rfl

theorem StacksOk.pushFront (h : StacksOk n s) (ht : t < n)
    (hst : s.thread t = .pushFront x :: fs) (hs : s.pushFront n t x fs = some s') :
    s.Moves ⟨t, action⟩ s' := by
  obtain ⟨-, rfl⟩ := ite_some_iff.mp hs
  exact h.returns ht hst (.progress rfl rfl (refl _) rfl) rfl

theorem StacksOk.mustNotWait (h : StacksOk n s) (ht : t < n) {use : MustWaitUse}
    (hst : s.thread t = .mustWait [] use :: fs) (hs : s.mustNotWait n t fs use = some s') :
    s.Moves ⟨t, action⟩ s' := by
  have hframe : s.FrameAt (.mustWait [] use) fs := (h.top ht hst).1
  cases use with
  | pushDependent priors returnsValue =>
    cases hs
    let d : SharedFuture := { status := .enqueued, returnsValue := returnsValue, priors := priors }
    have hd : (s.create d).KindsOk := h.kinds.create (by simp [d]) (by simp [d])
      (fun p hp ↦ ⟨(hframe.2.1 p hp).1, .inl (hframe.2.1 p hp).2⟩) rfl (by simp [d])
    exact h.moves ht hst hd (.create s d) (.of_eq rfl rfl rfl) rfl fun hf hfs ↦
      ⟨⟨⟨hf.2.2.onTop, .inl hf.2.2⟩, hfs⟩, hf.2.2⟩
  | wait futures =>
    cases hs
    exact h.returns ht hst (.of_eq rfl rfl rfl) rfl
  | pushControl x futures =>
    obtain ⟨-, rfl⟩ := ite_some_iff.mp hs
    exact h.moves_same ht hst (.progress rfl rfl (refl _) rfl) rfl fun hf hfs ↦
      ⟨⟨⟨hf.1, hf.2⟩, hfs⟩, trivial⟩

theorem StacksOk.mustDoWait (h : StacksOk n s) (ht : t < n) {use : MustWaitUse} {rest : List Nat}
    (hst : s.thread t = .mustWait rest use :: fs) :
    s.Moves ⟨t, action⟩ (s.mustDoWait t fs use) := by
  have hframe : s.FrameAt (.mustWait rest use) fs := (h.top ht hst).1
  cases use with
  | pushDependent priors returnsValue =>
    let d : SharedFuture := { returnsValue := returnsValue, priors := priors }
    let r : SharedFuture := { status := .enqueued, kind := .registration s.count }
    have hd : (s.create d).KindsOk := h.kinds.create (by simp [d]) (by simp [d])
      (fun p hp ↦ ⟨(hframe.2.1 p hp).1, .inl (hframe.2.1 p hp).2⟩) rfl (by simp [d])
    have hr : ((s.create d).create r).KindsOk := by
      refine hd.create (by simp [r]) (by simp [r]) (by simp [r]) rfl fun d' hd' ↦ ?_
      obtain rfl : s.count = d' := TaskKind.registration.inj hd'
      simp [create, setFuture]
    exact h.moves ht hst hr ((Extends.create s d).trans (.create _ r)) (.of_eq rfl rfl rfl) rfl
      fun hf hfs ↦ ⟨⟨⟨hf.2.2.onTop, .inl hf.2.2⟩, hfs⟩, hf.2.2⟩
  | wait futures =>
    let r : SharedFuture := { kind := .empty, priors := futures, isHighPriority := true }
    have hr : (s.create r).KindsOk := h.kinds.create (by simp [r]) (by simp [r])
      (fun p hp ↦ ⟨(hframe.2.1 p hp).1, .inl (hframe.2.1 p hp).2⟩) rfl (by simp [r])
    refine h.moves ht hst hr (.create s r) (.of_eq rfl rfl rfl) rfl fun hf hfs ↦ ?_
    have hlow : Unlocked _ (.blocked s.count :: fs) := Unlocked.cons trivial rfl hf.2.2
    refine ⟨⟨⟨hlow.onTop, ⟨Nat.lt_succ_self _, ?_⟩, hlow⟩, ⟨hf.2.2.onTop, hf.2.2⟩, hfs⟩, trivial⟩
    simp [CallbackQueue.mustDoWait, create, setFuture, setStack]
  | pushControl x futures =>
    obtain ⟨hx, hkind⟩ := hframe.2.1
    obtain ⟨hkinds, hext⟩ := h.kinds.setFuture
      (r := { s.future x with isHighPriority := true }) rfl rfl rfl (fun _ ↦ .inl hkind)
      (fun _ ↦ rfl) (h.kinds.dependents x hx)
    refine h.moves ht hst hkinds hext (.of_eq rfl rfl rfl) rfl fun hf hfs ↦
      ⟨⟨⟨hf.2.2.onTop, ⟨hx, fun _ ↦ ?_⟩, hf.2.2⟩, hfs⟩, trivial⟩
    simp [CallbackQueue.mustDoWait, setFuture, setStack]

theorem StacksOk.waitLoop (h : StacksOk n s) (ht : t < n) {rest futures : List Nat} {flag : Bool}
    (hst : s.thread t = .wait rest flag futures :: fs) :
    s.Moves ⟨t, action⟩ (s.waitLoop t flag futures fs rest) := by
  unfold CallbackQueue.waitLoop
  split
  · split
    · exact h.moves_same ht hst (.of_eq rfl rfl rfl) rfl fun hf hfs ↦
        ⟨⟨⟨hf.1, hf.2.1.2, hf.2.2⟩, hfs⟩, trivial⟩
    · exact h.returns ht hst (.of_eq rfl rfl rfl) rfl
  next p rest =>
    have hrest : ∀ s : CallbackQueue, ∀ flag', s.FrameAt (.wait (p :: rest) flag futures) fs →
        s.FrameAt (.wait rest flag' futures) fs := fun s flag' hf ↦
      ⟨hf.1, ⟨fun q hq ↦ hf.2.1.1 q (mem_cons_of_mem _ hq), hf.2.1.2⟩, hf.2.2⟩
    split
    · exact h.moves_same ht hst (.of_eq rfl rfl rfl) rfl fun hf hfs ↦ ⟨⟨hrest _ _ hf, hfs⟩, trivial⟩
    · refine h.moves_same ht hst (.of_eq rfl rfl rfl) rfl fun hf hfs ↦ ?_
      have hlow : Unlocked _ (.wait rest flag futures :: fs) := Unlocked.cons trivial rfl hf.2.2
      exact ⟨⟨⟨hlow.onTop, hf.2.1.1 p mem_cons_self, hlow⟩, hrest _ _ hf, hfs⟩, trivial⟩
    · exact h.moves_same ht hst (.of_eq rfl rfl rfl) rfl fun hf hfs ↦ ⟨⟨hrest _ _ hf, hfs⟩, trivial⟩

theorem StacksOk.tryInvokeLock (h : StacksOk n s) (ht : t < n)
    (hst : s.thread t = .tryInvokeLock x :: fs) (hs : s.tryInvokeLock n t x fs = some s') :
    s.Moves ⟨t, .advance⟩ s' := by
  obtain ⟨-, rfl⟩ := ite_some_iff.mp hs
  split
  · exact h.moves_same ht hst (.of_eq rfl rfl rfl) rfl fun hf hfs ↦ FrameAt.returnFalse hfs hf.1
  next hq =>
    have hold : s.StackOk (.tryInvokeLock x :: fs) := h.top ht hst
    have hsame : s.SameKinds { s.setStack t (.tryInvokeLocked x :: fs) with
      invokerQueue := popFrontNullptr s.invokerQueue } := .of_eq rfl rfl rfl
    have hnew := hold.mono hsame.extends
    exact ⟨h.kinds.same hsame, hsame.extends, _, rfl, ⟨hnew.1, hnew.2⟩,
      .inr (.inl ⟨x, fs, hst, rfl, hq, rfl⟩)⟩

theorem StacksOk.tryInvokeLocked (h : StacksOk n s) (ht : t < n)
    (hst : s.thread t = .tryInvokeLocked x :: fs) (hs : s.tryInvokeLocked n t x fs = some s') :
    s.Moves ⟨t, action⟩ s' := by
  simp only [CallbackQueue.tryInvokeLocked, Option.ite_none_right_eq_some] at hs
  obtain ⟨-, hs⟩ := hs
  split at hs
  · cases hs
    exact h.moves_same ht hst (.progress rfl rfl (refl _) rfl) rfl fun hf hfs ↦
      ⟨⟨⟨hf.1, hf.2.1.1, .inl hf.2.2⟩, hfs⟩, trivial⟩
  · cases hs
    exact h.moves_same ht hst (.of_eq rfl rfl rfl) rfl fun hf hfs ↦ FrameAt.returnFalse hfs hf.1

theorem StacksOk.register (h : StacksOk n s) (ht : t < n) {d : Nat} {rest : List Nat}
    (hst : s.thread t = .register d rest :: fs) (hs : s.register n t d fs rest = some s') :
    s.Moves ⟨t, action⟩ s' := by
  cases rest with
  | cons p rest =>
    cases hs
    split
    · exact h.moves_same ht hst (.of_eq rfl rfl rfl) rfl fun hf hfs ↦ ⟨⟨hf, hfs⟩, trivial⟩
    · exact h.moves_same ht hst (.of_eq rfl rfl rfl) rfl fun hf hfs ↦ ⟨⟨hf, hfs⟩, trivial⟩
  | nil =>
    obtain ⟨-, hs⟩ := Option.ite_none_right_eq_some.mp hs
    split at hs
    · cases hs
      exact h.moves_same ht hst (.progress rfl rfl (refl _) rfl) rfl fun hf hfs ↦
        ⟨⟨⟨hf.1, hf.2.1.1, .inl hf.2.2⟩, hfs⟩, trivial⟩
    · cases hs
      exact h.returns ht hst (.progress rfl rfl (refl _) rfl) rfl

theorem StacksOk.registerLock (h : StacksOk n s) (ht : t < n) {d p : Nat} {rest : List Nat}
    (hst : s.thread t = .registerLock d p rest :: fs)
    (hs : s.registerLock n t d p rest fs = some s') (hp : p < s.count) :
    s.Moves ⟨t, action⟩ s' := by
  obtain ⟨⟨-, hd, -⟩, -⟩ := h.top ht hst
  obtain ⟨-, hs⟩ := Option.ite_none_right_eq_some.mp hs
  split at hs
  · cases hs
    exact h.moves_same ht hst (.of_eq rfl rfl rfl) rfl fun hf hfs ↦ ⟨⟨hf, hfs⟩, trivial⟩
  · cases hs
    obtain ⟨hkinds, hext⟩ := h.kinds.setFuture
      (r := { s.future p with dependents := (s.future p).dependents ++ [d] }) rfl rfl rfl
      (h.kinds.isHighPriority p hp) id fun e he ↦ by
        rcases mem_append.mp he with he | he
        · exact h.kinds.dependents p hp e he
        · exact mem_singleton.mp he ▸ hd
    exact h.moves ht hst hkinds hext (.of_eq rfl rfl rfl) rfl fun hf hfs ↦ ⟨⟨hf, hfs⟩, trivial⟩

theorem StacksOk.enter (h : StacksOk n s) (ht : t < n) (hst : s.thread t = .invoke x :: fs)
    (hs : s.enter n t x fs = some s') : s.Moves ⟨t, action⟩ s' := by
  obtain ⟨⟨-, hx, -⟩, -⟩ := h.top ht hst
  obtain ⟨-, rfl⟩ := ite_some_iff.mp hs
  split
  next d hkind =>
    refine h.moves_same ht hst (.of_eq rfl rfl rfl) rfl fun hf hfs ↦ ?_
    -- A registration has no high priority and returns no value.
    have hbelow : Unlocked _ fs := hf.2.2.resolve_right fun hhigh ↦ by
      rcases h.kinds.isHighPriority x hx hhigh with h | h <;> simp [hkind] at h
    have hreturns := h.kinds.returnsValue x hx (by simp [hkind])
    have hlow : Unlocked _ (.body x :: fs) := Unlocked.cons ⟨hx, hreturns⟩ rfl hbelow
    obtain ⟨hd, hcontrol⟩ := h.kinds.registration x hx d hkind
    exact ⟨⟨⟨hlow.onTop, ⟨hd, fun hc ↦ absurd hc hcontrol⟩, hlow⟩, hf, hfs⟩, trivial⟩
  · exact h.moves_same ht hst (.of_eq rfl rfl rfl) rfl fun hf hfs ↦ ⟨⟨hf, hfs⟩, trivial⟩

theorem StacksOk.finish (h : StacksOk n s) (ht : t < n) (hst : s.thread t = .body x :: fs)
    (hs : s.finish n t x fs = some s') : s.Moves ⟨t, action⟩ s' := by
  obtain ⟨-, rfl⟩ := ite_some_iff.mp hs
  refine h.moves_same ht hst (.progress rfl rfl ?_ rfl) rfl fun hf hfs ↦ ⟨⟨hf, hfs⟩, trivial⟩
  split
  · exact filter_subset_self _
  · exact refl _

/-- A dependent that is launched into the queue is that of a task without high priority. -/
theorem KindsOk.not_high (h : s.KindsOk) {d : Nat} (hx : x < s.count)
    (hdep : d ∈ (s.future x).dependents) (hprior : x ∈ (s.future d).priors)
    (hd : (s.future d).isHighPriority = false) : (s.future x).isHighPriority = false := by
  by_contra hhigh
  rw [Bool.not_eq_false] at hhigh
  obtain ⟨hlt, hcontrol⟩ := h.dependents x hx d hdep
  have hkind := (h.priors d hlt x hprior).2
  rcases h.isHighPriority x hx hhigh with hk | hk
  · have hdk : (s.future d).kind = .control := by
      rcases hkind with hu | ⟨-, hc⟩
      · simp [hk] at hu
      · exact hc
    simp [hcontrol hdk] at hd
  · simp [hk] at hkind

theorem StacksOk.signalling (h : StacksOk n s) (hinv : Inv n s) (ht : t < n) {ds : List Nat}
    (hst : s.thread t = .signalling x ds :: fs) (hs : s.signalling n t x ds fs = some s') :
    s.Moves ⟨t, action⟩ s' := by
  obtain ⟨⟨-, hx, -⟩, -⟩ := h.top ht hst
  unfold CallbackQueue.signalling at hs
  split at hs
  · cases hs
    split
    · exact h.returns ht hst (.of_eq rfl rfl rfl) rfl
    next hds =>
      refine h.moves_same ht hst (.of_eq rfl rfl rfl) rfl fun hf hfs ↦ ?_
      have hlow : Unlocked _ fs := hf.2.2.resolve_right fun hr ↦ hds hr.2
      exact ⟨⟨⟨hf.1, hlow⟩, hfs⟩, trivial⟩
  next d deps hdeps =>
    have hsame : s.SameKinds (s.countDown x d deps) := .countDown hdeps
    have hmem : d ∈ (s.future x).dependents := hdeps ▸ mem_cons_self
    obtain ⟨hd, hprior, -⟩ := hinv.ledger.dependents x hx d hmem
    simp only [Option.ite_none_right_eq_some] at hs
    obtain ⟨-, hs⟩ := hs
    split at hs
    · split at hs
      next hhigh =>
        cases hs
        have hsame' := hsame.trans (show SameKinds _ (((s.countDown x d deps).setStatus d .running).setStack t
          (.invoke d :: .signalling x ds :: fs)) from .progress rfl rfl (refl _) rfl)
        refine h.moves_same ht hst hsame' rfl fun hf hfs ↦
          ⟨⟨⟨fun g hg ↦ ?_, hsame'.count ▸ hd, .inr ?_⟩, hf, hfs⟩, trivial⟩
        · rcases mem_cons.mp hg with rfl | hg
          · rfl
          · exact hf.1 g hg
        · rw [hsame'.isHighPriority, ← hsame.isHighPriority]
          exact hhigh
      next hlow =>
        cases hs
        refine h.moves_same ht hst (hsame.trans (.of_eq rfl rfl rfl)) rfl fun hf hfs ↦
          ⟨⟨⟨hf.1, hf.2.1, .inl ?_⟩, hfs⟩, trivial⟩
        rw [Bool.not_eq_true, hsame.isHighPriority] at hlow
        have hxlow := h.kinds.not_high hx hmem hprior hlow
        refine hf.2.2.resolve_right fun hr ↦ ?_
        rw [← hsame.isHighPriority] at hxlow
        exact absurd hr.1 (by simp [setStack, hxlow])
    · cases hs
      exact h.moves_same ht hst (hsame.trans (.of_eq rfl rfl rfl)) rfl fun hf hfs ↦
        ⟨⟨hf, hfs⟩, trivial⟩

theorem StacksOk.launching (h : StacksOk n s) (ht : t < n) {index : Int} {ds : List Nat}
    (hst : s.thread t = .launching index ds :: fs) (hs : s.launching n t index fs ds = some s') :
    s.Moves ⟨t, action⟩ s' := by
  cases ds with
  | nil =>
    cases hs
    exact h.returns ht hst (.of_eq rfl rfl rfl) rfl
  | cons d ds =>
    obtain ⟨-, rfl⟩ := ite_some_iff.mp hs
    exact h.moves_same ht hst (.progress rfl rfl (refl _) rfl) rfl fun hf hfs ↦ ⟨⟨hf, hfs⟩, trivial⟩

theorem StacksOk.advance (h : StacksOk n s) (hinv : Inv n s) (ht : t < n)
    (hst : s.thread t = f :: fs) (hs : s.advance n t fs f = some s') :
    s.Moves ⟨t, .advance⟩ s' := by
  cases f with
  | client | body _ => cases hs
  | loop => exact h.pop hinv ht hst hs
  | push x => exact h.pushBack ht hst hs
  | pushFront x => exact h.pushFront ht hst hs
  | mustWait rest use =>
    cases rest with
    | nil => exact h.mustNotWait ht hst hs
    | cons p rest =>
      cases hs
      split
      · exact h.moves_same ht hst (.of_eq rfl rfl rfl) rfl fun hf hfs ↦ ⟨⟨hf, hfs⟩, trivial⟩
      · exact h.mustDoWait ht hst
  | wait rest flag futures =>
    cases hs
    exact h.waitLoop ht hst
  | tryInvoke x =>
    cases hs
    split
    · exact h.moves_same ht hst (.of_eq rfl rfl rfl) rfl fun hf hfs ↦ ⟨⟨hf, hfs⟩, trivial⟩
    · exact h.moves_same ht hst (.of_eq rfl rfl rfl) rfl fun hf hfs ↦ FrameAt.returnFalse hfs hf.1
  | tryInvokeLock x => exact h.tryInvokeLock ht hst hs
  | tryInvokeLocked x => exact h.tryInvokeLocked ht hst hs
  | register d rest => exact h.register ht hst hs
  | registerLock d p rest =>
    obtain ⟨R, hok⟩ := hinv.entry ht hst
    obtain ⟨hd, hreg, -⟩ := hok.role _ mem_cons_self
    have hp : p < s.count := (h.kinds.priors d hd p (hreg.rest_subset mem_cons_self)).1
    exact h.registerLock ht hst hs hp
  | registerAdd d rest =>
    cases hs
    exact h.moves_same ht hst (.progress rfl rfl (refl _) rfl) rfl fun hf hfs ↦ ⟨⟨hf, hfs⟩, trivial⟩
  | blocked x =>
    obtain ⟨-, rfl⟩ := ite_some_iff.mp hs
    exact h.returns ht hst (.of_eq rfl rfl rfl) rfl
  | invoke x => exact h.enter ht hst hs
  | signal x =>
    obtain ⟨-, rfl⟩ := ite_some_iff.mp hs
    exact h.moves_same ht hst (.of_eq rfl rfl rfl) rfl fun hf hfs ↦
      ⟨⟨⟨hf.1, hf.2.1, hf.2.2.imp_right fun hr ↦ ⟨hr, rfl⟩⟩, hfs⟩, trivial⟩
  | signalling x ds => exact h.signalling hinv ht hst hs
  | launch ds =>
    obtain ⟨-, rfl⟩ := ite_some_iff.mp hs
    exact h.moves_same ht hst (.of_eq rfl rfl rfl) rfl fun hf hfs ↦ ⟨⟨hf, hfs⟩, trivial⟩
  | launching index ds => exact h.launching ht hst hs

theorem isUser_of_areUserFutures {futures : List Nat} (h : s.areUserFutures futures = true) :
    ∀ p ∈ futures, s.IsUser p := by
  intro p hp
  have hall := all_eq_true.mp h p hp
  simp only [Bool.and_eq_true, decide_eq_true_eq] at hall
  exact hall

/-- The frame of a client, the only one that calls more than `push`, holds no lock. -/
theorem StacksOk.client (h : StacksOk n s) (ht : t < n) (hst : s.thread t = f :: fs)
    (hruns : s.runsUserCode f = true) (hbody : ∀ x, f ≠ .body x) : s.Unlocked (f :: fs) := by
  obtain ⟨hf, -⟩ := h.top ht hst
  cases f with
  | client => exact Unlocked.cons trivial rfl hf.2
  | body x => exact absurd rfl (hbody x)
  | _ => cases hruns

theorem StacksOk.step (h : StacksOk n s) (hinv : Inv n s) {l : QueueStep}
    (honly : bodiesOnlyPush s l = true) (hs : s.step n l = some s') : s.Moves l s' := by
  obtain ⟨t, action⟩ := l
  obtain ⟨ht, hs⟩ := Option.ite_none_right_eq_some.mp hs
  split at hs
  · cases hs
  next f fs hst =>
    have hbody : (∀ r, action ≠ .push r) → action ≠ .advance → action ≠ .finish →
        ∀ x, f ≠ .body x := by
      rintro hpush hadvance hfinish x rfl
      cases action <;> simp_all [bodiesOnlyPush]
    cases action with
    | advance => exact h.advance hinv ht hst hs
    | push returnsValue =>
      obtain ⟨hruns, rfl⟩ := ite_some_iff.mp hs
      let r : SharedFuture := { status := .enqueued, returnsValue := returnsValue }
      have hr : (s.create r).KindsOk :=
        h.kinds.create (by simp [r]) (by simp [r]) (by simp [r]) rfl (by simp [r])
      cases f with
      | client =>
        refine h.moves ht hst hr (.create s r) (.of_eq rfl rfl rfl) rfl fun hf hfs ↦ ?_
        have hlow : Unlocked _ (.client :: fs) := Unlocked.cons trivial rfl hf.2
        exact ⟨⟨⟨hlow.onTop, .inl hlow⟩, hf, hfs⟩, hlow⟩
      | body x =>
        have hsame : (s.create r).SameKinds
            ((s.create r).setStack t (.push s.count :: .body x :: fs)) := .of_eq rfl rfl rfl
        have hext := (Extends.create s r).trans hsame.extends
        obtain ⟨hf, hfs⟩ := h.top ht hst
        have hx : s.IsUser x := ⟨hf.2.1, of_decide_eq_true hruns⟩
        have htop : ∀ g ∈ .body x :: fs, isOnTop g = false := by
          intro g hg
          rcases mem_cons.mp hg with rfl | hg
          · rfl
          · exact hf.1 g hg
        exact ⟨hr.same hsame, hext, _, rfl,
          ⟨⟨htop, .inr ⟨x, fs, rfl, hx.mono hext⟩⟩, hf.mono hext, hfs.mono hext⟩,
          .inr (.inr ⟨s.count, x, fs, hst, ⟨returnsValue, rfl⟩, rfl⟩)⟩
      | _ => cases hruns
    | pushDependent priors returnsValue =>
      obtain ⟨⟨hruns, hpriors⟩, rfl⟩ := ite_some_iff.mp hs
      have hlow := h.client ht hst hruns (hbody nofun nofun nofun)
      have husers := isUser_of_areUserFutures hpriors
      exact h.moves_same ht hst (.of_eq rfl rfl rfl) rfl fun hf hfs ↦
        ⟨⟨⟨hlow.onTop, husers, hlow⟩, hf, hfs⟩, trivial⟩
    | wait futures =>
      obtain ⟨⟨hruns, hfutures⟩, rfl⟩ := ite_some_iff.mp hs
      have hlow := h.client ht hst hruns (hbody nofun nofun nofun)
      have husers := isUser_of_areUserFutures hfutures
      exact h.moves_same ht hst (.of_eq rfl rfl rfl) rfl fun hf hfs ↦
        ⟨⟨⟨hlow.onTop, ⟨husers, husers⟩, hlow⟩, hf, hfs⟩, trivial⟩
    | pushControl =>
      obtain ⟨hruns, rfl⟩ := ite_some_iff.mp hs
      have hlow := h.client ht hst hruns (hbody nofun nofun nofun)
      let r : SharedFuture := { kind := .control, priors := s.controlFutures }
      have hr : (s.create r).KindsOk := h.kinds.create (by simp [r]) (by simp [r])
        (fun p hp ↦ ⟨(h.kinds.controls p hp).1, .inr ⟨(h.kinds.controls p hp).2, rfl⟩⟩) rfl
        (by simp [r])
      have hnew : ((s.create r).future s.count).kind = .control := by simp [create, setFuture, r]
      have hcontrols : ∀ x ∈ s.controlFutures ++ [s.count],
          x < s.count + 1 ∧ ((s.create r).future x).kind = .control := by
        intro x hx
        rcases mem_append.mp hx with hx | hx
        · obtain ⟨hlt, hkind⟩ := h.kinds.controls x hx
          exact ⟨Nat.lt_succ_of_lt hlt, (Extends.create s r).kind x hlt ▸ hkind⟩
        · rw [mem_singleton.mp hx]
          exact ⟨Nat.lt_succ_self _, hnew⟩
      let u := { s.create r with controlFutures := s.controlFutures ++ [s.count] }
      have hu : KindsOk u := { hr with controls := hcontrols }
      have hext := Extends.create s r
      refine h.moves ht hst hu ⟨hext.1, hext.2, hext.3, hext.4⟩ (.of_eq rfl rfl rfl) rfl
        fun hf hfs ↦ ?_
      have hlow' := hlow.mono hext
      exact ⟨⟨⟨hlow.onTop, ⟨Nat.lt_succ_self _, hnew⟩, hlow'⟩, hf, hfs⟩, trivial⟩
    | finish =>
      cases f with
      | body x => exact h.finish ht hst hs
      | _ => cases hs

theorem StacksOk.start (n workers : Nat) : StacksOk n (start workers) where
  kinds := by refine ⟨?_, ?_, ?_, ?_, ?_, ?_⟩ <;> simp [CallbackQueue.start]
  frames t _ := by
    have hnil : Unlocked (CallbackQueue.start workers) [] := forall_mem_nil _
    simp only [CallbackQueue.start]
    split <;> exact ⟨⟨forall_mem_nil _, hnil⟩, trivial⟩

end Hisab.Parallel.CallbackQueue
