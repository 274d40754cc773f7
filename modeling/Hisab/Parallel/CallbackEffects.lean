import Hisab.Parallel.CallbackStacks

/-!
# What a step of the queue keeps

A task in the deque stays there until a thread calls its function, the deque never begins with
a hole, a thread keeps the frames below its innermost one, and a future keeps its kind and its
priors. All this holds of every step, whatever the bodies of tasks call. A control task has all
those before it as priors, so that only one of their functions runs at a time.
-/

namespace Hisab.Parallel.CallbackQueue

open Base Function List List.Subset Option

/-- A frame with none below it: the loop of a worker, or a client. -/
def isRoot : QueueFrame → Bool
  | .loop | .client => true
  | _ => false

/-- The stack ends with `root`, which is the only such frame. -/
def Rooted (root : QueueFrame) (stack : List QueueFrame) : Prop :=
  ∃ gs, stack = gs ++ [root] ∧ ∀ g ∈ gs, isRoot g = false

/-- The futures of `s` are in `s'`, and a new control task has all control tasks before it as
priors. -/
structure Later (s s' : CallbackQueue) : Prop where
  count : s.count ≤ s'.count
  kind : ∀ x < s.count, (s'.future x).kind = (s.future x).kind
  priors : ∀ x < s.count, (s'.future x).priors = (s.future x).priors
  controls : s.controlFutures ⊆ s'.controlFutures
  entered : s.entered ⊆ s'.entered
  created : ∀ x < s'.count, s.count ≤ x → (s'.future x).kind = .control →
    x = s.count ∧ (s'.future x).priors = s.controlFutures ∧ x ∈ s'.controlFutures

/-- What a step makes of a stack `f :: fs`: new frames, with the old ones below, of which `f` may
be dropped and `try_invoke` may return false. -/
def Grows (action : QueueAction) (f : QueueFrame) (fs stack : List QueueFrame) : Prop :=
  ∃ gs rest, stack = gs ++ rest ∧ (∀ g ∈ gs, isRoot g = false) ∧
    (rest = f :: fs ∨ isRoot f = false ∧ ((∃ x, f = .body x) → action = .finish) ∧
      (rest = fs ∨ rest = returnFalse fs))

/-- A step of a thread with the stack `f :: fs`. -/
structure StepEffect (s : CallbackQueue) (t : Nat) (action : QueueAction) (f : QueueFrame)
    (fs : List QueueFrame) (s' : CallbackQueue) : Prop where
  later : s.Later s'
  stack : ∃ stack, s'.thread = update s.thread t stack ∧ Grows action f fs stack
  taken : ∀ x, some x ∈ s.invokerQueue → some x ∈ s'.invokerQueue ∨ .invoke x ∈ s'.thread t
  front : s'.invokerQueue.head? ≠ some none
  invoked : ∀ x, f = .invoke x → x ∈ s'.entered

variable {n t x : Nat} {s s' : CallbackQueue} {f root : QueueFrame} {fs gs stack : List QueueFrame}
  {action : QueueAction} {q : List (Option Nat)} {r : SharedFuture}

/-! ## Stacks -/

theorem returnFalse_cases (fs : List QueueFrame) : returnFalse fs = fs ∨
    ∃ rest flag futures gs, fs = .wait rest flag futures :: gs ∧
      returnFalse fs = .wait rest true futures :: gs := by
  unfold returnFalse
  split
  · exact .inr ⟨_, _, _, _, rfl, rfl⟩
  · exact .inl rfl

/-- Only the loop of `wait` sees that `try_invoke` failed. -/
theorem mem_returnFalse (hf : f ∈ fs) (hwait : ∀ rest flag futures, f ≠ .wait rest flag futures) :
    f ∈ returnFalse fs := by
  rcases returnFalse_cases fs with h | ⟨rest, flag, futures, gs, rfl, h⟩
  · rw [h]
    exact hf
  · rcases mem_cons.mp hf with rfl | hf
    · exact absurd rfl (hwait _ _ _)
    · exact mem_cons_of_mem _ hf

theorem Rooted.ne_nil (h : Rooted root stack) : stack ≠ [] := by
  obtain ⟨gs, rfl, -⟩ := h
  simp

theorem Rooted.returnFalse (h : Rooted root fs) (hroot : isRoot root = true) :
    Rooted root (returnFalse fs) := by
  obtain ⟨gs, rfl, hgs⟩ := h
  cases gs with
  | nil =>
    cases root with
    | loop | client => exact ⟨[], rfl, by simp⟩
    | _ => cases hroot
  | cons g gs =>
    cases g with
    | wait rest flag futures =>
      refine ⟨.wait rest true futures :: gs, rfl, fun g hg ↦ ?_⟩
      rcases mem_cons.mp hg with rfl | hg
      · rfl
      · exact hgs g (mem_cons_of_mem _ hg)
    | _ => exact ⟨_, rfl, hgs⟩

/-- The frames below one that is no root have the root. -/
theorem Rooted.tail (h : Rooted root (f :: fs)) (hf : isRoot f = false)
    (hroot : isRoot root = true) : Rooted root fs := by
  obtain ⟨gs, hst, hgs⟩ := h
  cases gs with
  | nil =>
    obtain ⟨rfl, -⟩ := cons.inj hst
    rw [hf] at hroot
    cases hroot
  | cons g gs =>
    obtain ⟨-, rfl⟩ := cons.inj hst
    exact ⟨gs, rfl, fun g hg ↦ hgs g (mem_cons_of_mem _ hg)⟩

/-- A root is alone on its stack. -/
theorem Rooted.eq_singleton (h : Rooted root (f :: fs)) (hf : isRoot f = true) :
    f = root ∧ fs = [] := by
  obtain ⟨gs, hst, hgs⟩ := h
  cases gs with
  | nil => exact ⟨(cons.inj hst).1, (cons.inj hst).2⟩
  | cons g gs =>
    obtain ⟨rfl, -⟩ := cons.inj hst
    rw [hgs f mem_cons_self] at hf
    cases hf

theorem Grows.rooted (h : Grows action f fs stack) (hroot : isRoot root = true)
    (hst : Rooted root (f :: fs)) : Rooted root stack := by
  obtain ⟨gs, rest, rfl, hgs, hrest⟩ := h
  have hbelow : Rooted root rest := by
    rcases hrest with rfl | ⟨hf, -, rfl | rfl⟩
    · exact hst
    · exact hst.tail hf hroot
    · exact (hst.tail hf hroot).returnFalse hroot
  obtain ⟨hs, rfl, hhs⟩ := hbelow
  refine ⟨gs ++ hs, by simp, fun g hg ↦ ?_⟩
  rcases mem_append.mp hg with hg | hg
  · exact hgs g hg
  · exact hhs g hg

/-- A frame is kept, unless it is the innermost one. -/
theorem Grows.mem (h : Grows action f fs stack) {g : QueueFrame} (hg : g ∈ fs)
    (hwait : ∀ rest flag futures, g ≠ .wait rest flag futures) : g ∈ stack := by
  obtain ⟨gs, rest, rfl, -, rfl | ⟨-, -, rfl | rfl⟩⟩ := h
  · exact mem_append_right _ (mem_cons_of_mem _ hg)
  · exact mem_append_right _ hg
  · exact mem_append_right _ (mem_returnFalse hg hwait)

/-- The body of a task is left when its function returns. -/
theorem Grows.body_mem (h : Grows action f fs stack) (hx : .body x ∈ f :: fs) :
    .body x ∈ stack ∨ f = .body x ∧ action = .finish := by
  by_cases hfx : f = .body x
  · obtain ⟨gs, rest, rfl, -, rfl | ⟨-, hbody, -⟩⟩ := h
    · exact .inl (mem_append_right _ hx)
    · exact .inr ⟨hfx, hbody ⟨x, hfx⟩⟩
  · rcases mem_cons.mp hx with hx | hx
    · exact absurd hx.symm hfx
    · exact .inl (h.mem hx (by simp))

/-- New frames over the old stack. -/
theorem Grows.push (gs : List QueueFrame) (hgs : ∀ g ∈ gs, isRoot g = false) :
    Grows action f fs (gs ++ f :: fs) :=
  ⟨gs, _, rfl, hgs, .inl rfl⟩

/-- New frames in the place of the innermost one. -/
theorem Grows.replace (gs : List QueueFrame) (hgs : ∀ g ∈ gs, isRoot g = false)
    (hf : isRoot f = false) (hbody : ∀ x, f ≠ .body x) : Grows action f fs (gs ++ fs) :=
  ⟨gs, _, rfl, hgs, .inr ⟨hf, fun ⟨x, hx⟩ ↦ absurd hx (hbody x), .inl rfl⟩⟩

theorem Grows.returnFalse (hf : isRoot f = false) (hbody : ∀ x, f ≠ .body x) :
    Grows action f fs (returnFalse fs) :=
  ⟨[], _, rfl, by simp, .inr ⟨hf, fun ⟨x, hx⟩ ↦ absurd hx (hbody x), .inr rfl⟩⟩

/-! ## Futures and the deque -/

theorem Later.of_same (h : s.SameKinds s') (hcontrols : s'.controlFutures = s.controlFutures)
    (hentered : s.entered ⊆ s'.entered) : s.Later s' where
  count := h.count.ge
  kind x _ := h.kind x
  priors x _ := h.priors x
  controls := hcontrols ▸ refl _
  entered := hentered
  created _ hx hxs := absurd (h.count ▸ hx) (Nat.not_lt.mpr hxs)

/-- Nothing but the stacks and the deque changes. -/
theorem Later.of_eq (hfuture : s'.future = s.future) (hcount : s'.count = s.count)
    (hcontrols : s'.controlFutures = s.controlFutures) (hentered : s'.entered = s.entered) :
    s.Later s' :=
  .of_same (.of_eq hfuture hcount hcontrols) hcontrols (hentered ▸ refl _)

/-- The status, the counter or the index of a future changes. -/
theorem Later.progress (hfuture : s'.future = update s.future x r)
    (hcount : s'.count = s.count) (hcontrols : s'.controlFutures = s.controlFutures)
    (hentered : s'.entered = s.entered)
    (hr : r = { s.future x with status := r.status, remaining := r.remaining, invokerIndex := r.invokerIndex })
    :
    s.Later s' :=
  .of_same (.progress hfuture hcount (hcontrols ▸ refl _) hr) hcontrols (hentered ▸ refl _)

/-- A future keeps its kind and its priors. -/
theorem Later.of_update (hfuture : s'.future = update s.future x r)
    (hcount : s'.count = s.count) (hcontrols : s'.controlFutures = s.controlFutures)
    (hentered : s'.entered = s.entered) (hkind : r.kind = (s.future x).kind)
    (hpriors : r.priors = (s.future x).priors) : s.Later s' := by
  have hcases : ∀ y, s'.future y = s.future y ∨ y = x ∧ s'.future y = r := by
    intro y
    by_cases hy : y = x
    · exact .inr ⟨hy, by rw [hfuture, hy, update_self]⟩
    · exact .inl (by rw [hfuture, update_of_ne hy])
  refine ⟨hcount.ge, fun y _ ↦ ?_, fun y _ ↦ ?_, hcontrols ▸ refl _,
    hentered ▸ refl _, fun y hy hys ↦ absurd (hcount ▸ hy) (Nat.not_lt.mpr hys)⟩
  · rcases hcases y with h | ⟨rfl, h⟩
    · rw [h]
    · rw [h, hkind]
  · rcases hcases y with h | ⟨rfl, h⟩
    · rw [h]
    · rw [h, hpriors]

/-- A new future that is no control task. -/
theorem Later.create (s : CallbackQueue) (hr : r.kind ≠ .control) : s.Later (s.create r) where
  count := Nat.le_succ _
  kind x hx := congrArg SharedFuture.kind (update_of_ne (Nat.ne_of_lt hx) ..)
  priors x hx := congrArg SharedFuture.priors (update_of_ne (Nat.ne_of_lt hx) ..)
  controls := refl _
  entered := refl _
  created x hx hxs hkind := by
    have hxc : x = s.count := Nat.le_antisymm (Nat.lt_succ_iff.mp hx) hxs
    subst hxc
    have hself : (s.create r).future s.count = r := update_self ..
    rw [hself] at hkind
    exact absurd hkind hr

/-- Stacks and the deque do not matter. -/
theorem Later.congr {u : CallbackQueue} (h : s.Later u) (hfuture : s'.future = u.future)
    (hcount : s'.count = u.count) (hcontrols : s'.controlFutures = u.controlFutures)
    (hentered : s'.entered = u.entered) : s.Later s' where
  count := hcount ▸ h.count
  kind y hy := hfuture ▸ h.kind y hy
  priors y hy := hfuture ▸ h.priors y hy
  controls := hcontrols ▸ h.controls
  entered := hentered ▸ h.entered
  created := by
    rw [hfuture, hcount, hcontrols]
    exact h.created

/-- A future that is created after others, none of them a control task. -/
theorem Later.create_after (h : s.Later s') (hr : r.kind ≠ .control)
    (hplain : ∀ x < s'.count, s.count ≤ x → (s'.future x).kind ≠ .control) :
    s.Later (s'.create r) := by
  have hnew := Later.create s' hr
  refine ⟨h.count.trans hnew.count, fun x hx ↦ ?_, fun x hx ↦ ?_, h.controls, h.entered,
    fun x hx hxs hkind ↦ ?_⟩
  · exact (hnew.kind x (hx.trans_le h.count)).trans (h.kind x hx)
  · exact (hnew.priors x (hx.trans_le h.count)).trans (h.priors x hx)
  · by_cases hmid : x < s'.count
    · exact absurd ((hnew.kind x hmid).symm.trans hkind) (hplain x hmid hxs)
    · obtain ⟨rfl, -⟩ := hnew.created x hx (Nat.not_lt.mp hmid) hkind
      have hself : (s'.create r).future s'.count = r := update_self ..
      rw [hself] at hkind
      exact absurd hkind hr

/-! ## The effect of each function -/

/-- A step that leaves the deque and calls no function. -/
theorem StepEffect.of_quiet (hfront : s.invokerQueue.head? ≠ some none) (hlater : s.Later s')
    (hthread : s'.thread = update s.thread t stack) (hgrows : Grows action f fs stack)
    (hqueue : s'.invokerQueue = s.invokerQueue) (hinvoke : ∀ x, f ≠ .invoke x) :
    StepEffect s t action f fs s' where
  later := hlater
  stack := ⟨stack, hthread, hgrows⟩
  taken _ hx := .inl (hqueue ▸ hx)
  front := hqueue ▸ hfront
  invoked x hx := absurd hx (hinvoke x)

/-- A step that drops at most holes of the deque, and calls no function. -/
theorem StepEffect.of_deque (hlater : s.Later s')
    (hthread : s'.thread = update s.thread t stack) (hgrows : Grows action f fs stack)
    (htaken : ∀ x, some x ∈ s.invokerQueue → some x ∈ s'.invokerQueue ∨ .invoke x ∈ stack)
    (hfront : s'.invokerQueue.head? ≠ some none) (hinvoke : ∀ x, f ≠ .invoke x) :
    StepEffect s t action f fs s' where
  later := hlater
  stack := ⟨stack, hthread, hgrows⟩
  taken x hx := by
    rw [hthread, update_self]
    exact htaken x hx
  front := hfront
  invoked x hx := absurd hx (hinvoke x)

theorem mem_popFrontNullptr (q : List (Option Nat)) (x : Nat) :
    some x ∈ popFrontNullptr q ↔ some x ∈ q := by
  induction q with
  | nil => rfl
  | cons a q ih =>
    cases a with
    | none => rw [popFrontNullptr, ih]; simp
    | some y => rfl

/-- The queue without a task keeps the others. -/
theorem mem_takeAt {i : Nat} (hq : q[i]? = some (some x)) {y : Nat} (hy : some y ∈ q) :
    y = x ∨ some y ∈ takeAt q i := by
  by_cases hyx : y = x
  · exact .inl hyx
  · right
    obtain ⟨j, hj⟩ := mem_iff_getElem?.mp hy
    have hij : j ≠ i := by
      rintro rfl
      rw [hj] at hq
      exact hyx (some.inj (some.inj hq))
    by_cases hi : i = 0
    · subst hi
      rw [takeAt, if_pos rfl, mem_popFrontNullptr]
      cases q with
      | nil => simp at hq
      | cons a q =>
        cases j with
        | zero => exact absurd rfl hij
        | succ j => exact mem_of_getElem? (by simpa using hj)
    · rw [takeAt, if_neg hi]
      exact mem_iff_getElem?.mpr ⟨j, by rw [getElem?_set_ne (Ne.symm hij), hj]⟩

theorem head?_takeAt (hfront : q.head? ≠ some none) (i : Nat) : (takeAt q i).head? ≠ some none := by
  by_cases hi : i = 0
  · rw [takeAt, if_pos hi]
    exact head?_popFrontNullptr _
  · rw [takeAt, if_neg hi]
    cases q with
    | nil => simp
    | cons a q =>
      cases i with
      | zero => exact absurd rfl hi
      | succ i => simpa using hfront

section Functions

variable (hfront : s.invokerQueue.head? ≠ some none)

include hfront

/-- A worker takes the task at the front. -/
theorem StepEffect.pop (hs : s.pop n t fs = some s') : StepEffect s t .advance .loop fs s' := by
  obtain ⟨⟨-, hne⟩, hs⟩ := ite_none_right_eq_some.mp hs
  cases hq : s.invokerQueue with
  | nil => exact absurd hq hne
  | cons a q =>
    cases a with
    | none => simp [hq] at hfront
    | some x =>
      rw [hq] at hs
      cases hs
      refine .of_deque (.progress rfl rfl rfl rfl rfl) rfl
        (.push [.invoke x] (by simp [isRoot])) (fun y hy ↦ ?_) (head?_popFrontNullptr _)
        (by simp)
      rw [hq] at hy
      rcases mem_cons.mp hy with hy | hy
      · rw [some.inj hy]
        exact .inr mem_cons_self
      · exact .inl ((mem_popFrontNullptr q y).mpr hy)

theorem StepEffect.pushBack (hs : s.pushBack n t x fs = some s') :
    StepEffect s t .advance (.push x) fs s' := by
  obtain ⟨-, rfl⟩ := ite_some_iff.mp hs
  refine .of_deque (.progress rfl rfl rfl rfl rfl) rfl
    (.replace [] (by simp) rfl (by simp)) (fun y hy ↦ .inl (mem_append_left _ hy)) ?_
    (by simp)
  cases hq : s.invokerQueue with
  | nil => simp
  | cons a q => simpa [hq] using hfront

omit hfront in
theorem StepEffect.pushFront (hs : s.pushFront n t x fs = some s') :
    StepEffect s t .advance (.pushFront x) fs s' := by
  obtain ⟨-, rfl⟩ := ite_some_iff.mp hs
  exact .of_deque (.progress rfl rfl rfl rfl rfl) rfl
    (.replace [] (by simp) rfl (by simp)) (fun y hy ↦ .inl (mem_cons_of_mem _ hy))
    (by simp) (by simp)

theorem StepEffect.mustNotWait {use : MustWaitUse} (hs : s.mustNotWait n t fs use = some s') :
    StepEffect s t .advance (.mustWait [] use) fs s' := by
  cases use with
  | pushDependent priors returnsValue =>
    cases hs
    exact .of_quiet hfront ((Later.create s (by simp)).congr rfl rfl rfl rfl) rfl
      (.replace [.push s.count] (by simp [isRoot]) rfl (by simp)) rfl (by simp)
  | wait futures =>
    cases hs
    exact .of_quiet hfront (.of_eq rfl rfl rfl rfl) rfl (.replace [] (by simp) rfl (by simp))
      rfl (by simp)
  | pushControl x futures =>
    obtain ⟨-, rfl⟩ := ite_some_iff.mp hs
    exact .of_quiet hfront (.progress rfl rfl rfl rfl rfl) rfl
      (.replace [.pushFront x] (by simp [isRoot]) rfl (by simp)) rfl (by simp)

theorem StepEffect.mustDoWait (use : MustWaitUse) {rest : List Nat} :
    StepEffect s t .advance (.mustWait rest use) fs (s.mustDoWait t fs use) := by
  cases use with
  | pushDependent priors returnsValue =>
    refine .of_quiet hfront (Later.congr (u := (s.create _).create _) ?_ rfl rfl rfl rfl) rfl
      (.replace [.push (s.count + 1)] (by simp [isRoot]) rfl (by simp)) rfl (by simp)
    refine (Later.create s (by simp)).create_after (by simp) fun x hx hxs ↦ ?_
    have hxc : x = s.count := Nat.le_antisymm (Nat.lt_succ_iff.mp hx) hxs
    simp [hxc, create, setFuture]
  | wait futures =>
    exact .of_quiet hfront ((Later.create s (by simp)).congr rfl rfl rfl rfl) rfl
      (.replace [.register s.count futures, .blocked s.count] (by simp [isRoot]) rfl
        (by simp)) rfl (by simp)
  | pushControl x futures =>
    exact .of_quiet hfront (.of_update rfl rfl rfl rfl rfl rfl) rfl
      (.replace [.register x futures] (by simp [isRoot]) rfl (by simp)) rfl (by simp)

theorem StepEffect.waitLoop {rest futures : List Nat} {flag : Bool} :
    StepEffect s t .advance (.wait rest flag futures) fs (s.waitLoop t flag futures fs rest) := by
  have hmove : ∀ gs : List QueueFrame, (∀ g ∈ gs, isRoot g = false) →
      StepEffect s t .advance (.wait rest flag futures) fs (s.setStack t (gs ++ fs)) := fun gs hgs ↦
    .of_quiet hfront (.of_eq rfl rfl rfl rfl) rfl (.replace gs hgs rfl (by simp)) rfl (by simp)
  cases rest with
  | nil =>
    cases flag with
    | false => exact hmove [] (by simp)
    | true => exact hmove [.mustWait futures (.wait futures)] (by simp [isRoot])
  | cons p rest =>
    simp only [CallbackQueue.waitLoop]
    split
    · exact hmove [.wait rest flag futures] (by simp [isRoot])
    · exact hmove [.tryInvoke p, .wait rest flag futures] (by simp [isRoot])
    · exact hmove [.wait rest true futures] (by simp [isRoot])

omit hfront in
theorem StepEffect.tryInvokeLock (hs : s.tryInvokeLock n t x fs = some s') :
    StepEffect s t .advance (.tryInvokeLock x) fs s' := by
  obtain ⟨-, rfl⟩ := ite_some_iff.mp hs
  refine .of_deque (.of_eq rfl rfl rfl rfl) rfl ?_
    (fun y hy ↦ .inl ((mem_popFrontNullptr _ y).mpr hy)) (head?_popFrontNullptr _) (by simp)
  split
  · exact .returnFalse rfl (by simp)
  · exact .replace [.tryInvokeLocked x] (by simp [isRoot]) rfl (by simp)

theorem StepEffect.tryInvokeLocked (hs : s.tryInvokeLocked n t x fs = some s') :
    StepEffect s t .advance (.tryInvokeLocked x) fs s' := by
  simp only [CallbackQueue.tryInvokeLocked, ite_none_right_eq_some] at hs
  obtain ⟨-, hs⟩ := hs
  split at hs
  next htaken =>
    cases hs
    refine .of_deque (.progress rfl rfl rfl rfl rfl) rfl
      (.replace [.invoke x] (by simp [isRoot]) rfl (by simp)) (fun y hy ↦ ?_)
      (head?_takeAt hfront _) (by simp)
    rcases mem_takeAt htaken.2.2.2 hy with rfl | hy
    · exact .inr mem_cons_self
    · exact .inl hy
  · cases hs
    exact .of_quiet hfront (.of_eq rfl rfl rfl rfl) rfl (.returnFalse rfl (by simp)) rfl (by simp)

theorem StepEffect.register {d : Nat} {rest : List Nat} (hs : s.register n t d fs rest = some s') :
    StepEffect s t .advance (.register d rest) fs s' := by
  cases rest with
  | cons p rest =>
    cases hs
    refine .of_quiet hfront (.of_eq rfl rfl rfl rfl) rfl ?_ rfl (by simp)
    split
    · exact .replace [.register d rest] (by simp [isRoot]) rfl (by simp)
    · exact .replace [.registerLock d p rest] (by simp [isRoot]) rfl (by simp)
  | nil =>
    obtain ⟨-, hs⟩ := ite_none_right_eq_some.mp hs
    split at hs
    · cases hs
      exact .of_quiet hfront (.progress rfl rfl rfl rfl rfl) rfl
        (.replace [.invoke d] (by simp [isRoot]) rfl (by simp)) rfl (by simp)
    · cases hs
      exact .of_quiet hfront (.progress rfl rfl rfl rfl rfl) rfl
        (.replace [] (by simp) rfl (by simp)) rfl (by simp)

theorem StepEffect.registerLock {d p : Nat} {rest : List Nat}
    (hs : s.registerLock n t d p rest fs = some s') :
    StepEffect s t .advance (.registerLock d p rest) fs s' := by
  obtain ⟨-, hs⟩ := ite_none_right_eq_some.mp hs
  split at hs
  · cases hs
    exact .of_quiet hfront (.of_eq rfl rfl rfl rfl) rfl
      (.replace [.register d rest] (by simp [isRoot]) rfl (by simp)) rfl (by simp)
  · cases hs
    exact .of_quiet hfront (.of_update rfl rfl rfl rfl rfl rfl) rfl
      (.replace [.registerAdd d rest] (by simp [isRoot]) rfl (by simp)) rfl (by simp)

/-- A function is called. -/
theorem StepEffect.enter (hs : s.enter n t x fs = some s') :
    StepEffect s t .advance (.invoke x) fs s' := by
  obtain ⟨-, rfl⟩ := ite_some_iff.mp hs
  refine ⟨.of_same (.of_eq rfl rfl rfl) rfl (subset_append_left _ _), ⟨_, rfl, ?_⟩,
    fun _ ↦ .inl, hfront, fun y hy ↦ ?_⟩
  · split
    next d _ => exact .replace [.register d _, .body x] (by simp [isRoot]) rfl (by simp)
    · exact .replace [.body x] (by simp [isRoot]) rfl (by simp)
  · obtain rfl : x = y := by simpa using hy
    exact mem_append_right _ mem_cons_self

theorem StepEffect.signalling {ds : List Nat} (hs : s.signalling n t x ds fs = some s') :
    StepEffect s t .advance (.signalling x ds) fs s' := by
  unfold CallbackQueue.signalling at hs
  split at hs
  · cases hs
    refine .of_quiet hfront (.of_eq rfl rfl rfl rfl) rfl ?_ rfl (by simp)
    split
    · exact .replace [] (by simp) rfl (by simp)
    · exact .replace [.launch ds] (by simp [isRoot]) rfl (by simp)
  next d rest hdeps =>
    simp only [ite_none_right_eq_some] at hs
    obtain ⟨-, hs⟩ := hs
    have hsame : s.SameKinds (s.countDown x d rest) := .countDown hdeps
    have hcount : s.Later (s.countDown x d rest) := .of_same hsame rfl (refl _)
    split at hs
    · split at hs
      · cases hs
        refine .of_quiet hfront ?_ rfl (.replace [.invoke d, .signalling x ds]
          (by simp [isRoot]) rfl (by simp)) rfl (by simp)
        exact .of_same (hsame.trans (.progress rfl rfl (refl _) rfl)) rfl (refl _)
      · cases hs
        exact .of_quiet hfront (hcount.congr rfl rfl rfl rfl) rfl
          (.replace [.signalling x (ds ++ [d])] (by simp [isRoot]) rfl (by simp)) rfl
          (by simp)
    · cases hs
      exact .of_quiet hfront (hcount.congr rfl rfl rfl rfl) rfl
        (.replace [.signalling x ds] (by simp [isRoot]) rfl (by simp)) rfl (by simp)

omit hfront in
theorem StepEffect.launch {ds : List Nat} (hs : s.launch n t ds fs = some s') :
    StepEffect s t .advance (.launch ds) fs s' := by
  obtain ⟨-, rfl⟩ := ite_some_iff.mp hs
  exact .of_deque (.of_eq rfl rfl rfl rfl) rfl
    (.replace [.launching _ ds] (by simp [isRoot]) rfl (by simp))
    (fun y hy ↦ .inl ((mem_popFrontNullptr _ y).mpr hy)) (head?_popFrontNullptr _) (by simp)

theorem StepEffect.launching {index : Int} {ds : List Nat}
    (hs : s.launching n t index fs ds = some s') :
    StepEffect s t .advance (.launching index ds) fs s' := by
  cases ds with
  | nil =>
    cases hs
    exact .of_quiet hfront (.of_eq rfl rfl rfl rfl) rfl (.replace [] (by simp) rfl (by simp))
      rfl (by simp)
  | cons d ds =>
    obtain ⟨-, rfl⟩ := ite_some_iff.mp hs
    exact .of_deque (.progress rfl rfl rfl rfl rfl) rfl
      (.replace [.launching (index - 1) ds] (by simp [isRoot]) rfl (by simp))
      (fun y hy ↦ .inl (mem_cons_of_mem _ hy)) (by simp) (by simp)

theorem StepEffect.finish (hs : s.finish n t x fs = some s') :
    StepEffect s t .finish (.body x) fs s' := by
  obtain ⟨-, rfl⟩ := ite_some_iff.mp hs
  have hcontrols : (if (s.future x).kind = .control then
      s.controlFutures.filter (some · ≠ controlWorkerFuture) else s.controlFutures) =
      s.controlFutures := by
    split
    · simp [controlWorkerFuture]
    · rfl
  refine .of_quiet hfront (.progress rfl rfl hcontrols rfl rfl) rfl ?_ rfl (by simp)
  exact ⟨[.signal x], fs, rfl, by simp [isRoot], .inr ⟨rfl, fun _ ↦ rfl, .inl rfl⟩⟩

/-- The next step of the innermost frame. -/
theorem StepEffect.advance (hs : s.advance n t fs f = some s') :
    StepEffect s t .advance f fs s' := by
  cases f with
  | client | body _ => cases hs
  | loop => exact .pop hfront hs
  | push x => exact .pushBack hfront hs
  | pushFront x => exact .pushFront hs
  | mustWait rest use =>
    cases rest with
    | nil => exact .mustNotWait hfront hs
    | cons p rest =>
      cases hs
      split
      · exact .of_quiet hfront (.of_eq rfl rfl rfl rfl) rfl
          (.replace [.mustWait rest use] (by simp [isRoot]) rfl (by simp)) rfl (by simp)
      · exact .mustDoWait hfront use
  | wait rest flag futures =>
    cases hs
    exact .waitLoop hfront
  | tryInvoke x =>
    cases hs
    refine .of_quiet hfront (.of_eq rfl rfl rfl rfl) rfl ?_ rfl (by simp)
    split
    · exact .replace [.tryInvokeLock x] (by simp [isRoot]) rfl (by simp)
    · exact .returnFalse rfl (by simp)
  | tryInvokeLock x => exact .tryInvokeLock hs
  | tryInvokeLocked x => exact .tryInvokeLocked hfront hs
  | register d rest => exact .register hfront hs
  | registerLock d p rest => exact .registerLock hfront hs
  | registerAdd d rest =>
    cases hs
    exact .of_quiet hfront (.progress rfl rfl rfl rfl rfl) rfl
      (.replace [.register d rest] (by simp [isRoot]) rfl (by simp)) rfl (by simp)
  | blocked x =>
    obtain ⟨-, rfl⟩ := ite_some_iff.mp hs
    exact .of_quiet hfront (.of_eq rfl rfl rfl rfl) rfl
      (.replace [] (by simp) rfl (by simp)) rfl (by simp)
  | invoke x => exact .enter hfront hs
  | signal x =>
    obtain ⟨-, rfl⟩ := ite_some_iff.mp hs
    exact .of_quiet hfront (.of_eq rfl rfl rfl rfl) rfl
      (.replace [.signalling x []] (by simp [isRoot]) rfl (by simp)) rfl (by simp)
  | signalling x launch => exact .signalling hfront hs
  | launch ds => exact .launch hs
  | launching index ds => exact .launching hfront hs

theorem StepEffect.of_step (hst : s.thread t = f :: fs)
    (hs : s.step n ⟨t, action⟩ = some s') : StepEffect s t action f fs s' := by
  simp only [CallbackQueue.step, ite_none_right_eq_some, hst] at hs
  obtain ⟨-, hs⟩ := hs
  have hcalls : ∀ f, s.runsUserCode f = true → ∀ x, f ≠ .invoke x := by
    rintro f hf x rfl
    cases hf
  cases action with
  | advance => exact .advance hfront hs
  | push returnsValue =>
    obtain ⟨hf, rfl⟩ := ite_some_iff.mp hs
    exact .of_quiet hfront ((Later.create s (by simp)).congr rfl rfl rfl rfl) rfl
      (.push [.push s.count] (by simp [isRoot])) rfl (hcalls f hf)
  | pushDependent priors returnsValue =>
    obtain ⟨⟨hf, -⟩, rfl⟩ := ite_some_iff.mp hs
    exact .of_quiet hfront (.of_eq rfl rfl rfl rfl) rfl
      (.push [.mustWait priors _] (by simp [isRoot])) rfl (hcalls f hf)
  | wait futures =>
    obtain ⟨⟨hf, -⟩, rfl⟩ := ite_some_iff.mp hs
    exact .of_quiet hfront (.of_eq rfl rfl rfl rfl) rfl
      (.push [.wait futures false futures] (by simp [isRoot])) rfl (hcalls f hf)
  | pushControl =>
    obtain ⟨hf, rfl⟩ := ite_some_iff.mp hs
    refine .of_quiet hfront ⟨Nat.le_succ _, fun x hx ↦ ?_, fun x hx ↦ ?_,
      subset_append_left _ _, refl _, fun x hx hxs _ ↦ ?_⟩ rfl
      (.push [.mustWait s.controlFutures _] (by simp [isRoot])) rfl (hcalls f hf)
    · exact congrArg SharedFuture.kind (update_of_ne (Nat.ne_of_lt hx) ..)
    · exact congrArg SharedFuture.priors (update_of_ne (Nat.ne_of_lt hx) ..)
    · obtain rfl : x = s.count := Nat.le_antisymm (Nat.lt_succ_iff.mp hx) hxs
      refine ⟨rfl, ?_, mem_append_right _ mem_cons_self⟩
      have hself : (s.create { kind := .control, priors := s.controlFutures }).future s.count =
          { kind := .control, priors := s.controlFutures } := update_self ..
      exact congrArg SharedFuture.priors hself
  | finish =>
    cases f with
    | body x => exact .finish hfront hs
    | _ => cases hs

end Functions

/-! ## Control tasks run one after another -/
@[simp] theorem setStack_thread (s : CallbackQueue) (t : Nat) (stack : List QueueFrame) :
    (s.setStack t stack).thread = update s.thread t stack := rfl

/-- Every control task has those before it as priors. -/
structure Chained (s : CallbackQueue) : Prop where
  controls : ∀ x < s.count, (s.future x).kind = .control → x ∈ s.controlFutures
  priors : ∀ y < s.count, (s.future y).kind = .control → ∀ x < y, (s.future x).kind = .control →
    x ∈ (s.future y).priors

theorem Chained.later (h : s.Chained) (hs : s.Later s') : s'.Chained where
  controls x hx hkind := by
    by_cases hxs : x < s.count
    · exact hs.controls (h.controls x hxs ((hs.kind x hxs).symm.trans hkind))
    · exact (hs.created x hx (Nat.not_lt.mp hxs) hkind).2.2
  priors y hy hkind x hxy hx := by
    by_cases hys : y < s.count
    · rw [hs.priors y hys]
      rw [hs.kind y hys] at hkind
      rw [hs.kind x (hxy.trans hys)] at hx
      exact h.priors y hys hkind x hxy hx
    · obtain ⟨rfl, hpriors, -⟩ := hs.created y hy (Nat.not_lt.mp hys) hkind
      rw [hpriors]
      exact h.controls x hxy ((hs.kind x hxy).symm.trans hx)

/-- A future in whose function a thread is. -/
theorem Inv.of_body (h : Inv n s) (ht : t < n) (hx : .body x ∈ s.thread t) :
    x < s.count ∧ (s.future x).status = .running ∧ x ∈ s.entered := by
  have hmem : (x, .inBody) ∈ (s.ledger n).roles := mem_append_right _
    (mem_held.mpr ⟨t, ht, mem_flatMap.mpr ⟨_, hx, mem_cons_self⟩⟩)
  exact h.ledger.role _ hmem

/-- Of two control tasks, the later one is not in its function while the earlier one is. -/
theorem Inv.not_lt_of_body (h : Inv n s) (hc : s.Chained) {u y : Nat} (ht : t < n) (hu : u < n)
    (hx : .body x ∈ s.thread t) (hy : .body y ∈ s.thread u) (hkx : (s.future x).kind = .control)
    (hky : (s.future y).kind = .control) : ¬x < y := by
  intro hxy
  obtain ⟨hlt, -, hentered⟩ := h.of_body hu hy
  have hready : (s.future x).status = .ready :=
    h.ledger.priors_ready hentered (hc.priors y hlt hky x hxy hkx)
  rw [(h.of_body ht hx).2.1] at hready
  cases hready

/-- Two control tasks are not in their functions at the same time. -/
theorem Inv.control_unique (h : Inv n s) (hc : s.Chained) {u y : Nat} (ht : t < n) (hu : u < n)
    (hx : .body x ∈ s.thread t) (hy : .body y ∈ s.thread u) (hkx : (s.future x).kind = .control)
    (hky : (s.future y).kind = .control) : x = y := by
  have hxy := h.not_lt_of_body hc ht hu hx hy hkx hky
  have hyx := h.not_lt_of_body hc hu ht hy hx hky hkx
  omega

/-- The same futures, with the same places responsible for them. -/
theorem Inv.of_roles (h : Inv n s) (hfuture : s'.future = s.future) (hcount : s'.count = s.count)
    (hentered : s'.entered = s.entered) (hcontrols : s'.controlFutures = s.controlFutures)
    (hqueue : s'.invokerQueue = s.invokerQueue)
    (hroles : (held stackRoles n s.thread).Perm (held stackRoles n s'.thread))
    (hframes : ∀ t < n, ∀ f ∈ s'.thread t, f ∈ s.thread t ∨ s'.FrameOk f) : Inv n s' where
  ledger := by
    have hperm := h.ledger.perm (hroles.append_left (queueRoles s.invokerQueue))
    simpa only [CallbackQueue.ledger, hfuture, hcount, hentered, hqueue] using hperm
  frames t ht f hf := by
    rcases hframes t ht f hf with hf | hf
    · exact (h.frames t ht f hf).mono hcount.ge fun p _ hp ↦ hfuture ▸ hp
    · exact hf
  controls x hx := by
    rw [hcontrols] at hx
    exact hcount ▸ h.controls x hx

/-- A thread with no place in the ledger gets another such stack. -/
theorem Inv.setIdle (h : Inv n s) (hold : stackRoles (s.thread t) = [])
    (hnew : stackRoles stack = []) (hframes : ∀ f ∈ stack, s.FrameOk f) :
    Inv n (s.setStack t stack) := by
  refine h.of_roles rfl rfl rfl rfl rfl (.of_eq (held_congr fun u _ ↦ ?_)) fun u _ f hf ↦ ?_
  · by_cases hu : u = t
    · simp [hu, hold, hnew]
    · simp [update_of_ne hu]
  · by_cases hu : u = t
    · subst hu
      exact .inr (hframes f (by simpa using hf))
    · exact .inl (by simpa [update_of_ne hu] using hf)

/-- `push_control` calls the function itself. -/
theorem Inv.callInline (h : Inv n s) (ht : t < n) {futures : List Nat}
    (hst : s.thread t = .mustWait [] (.pushControl x futures) :: fs) :
    Inv n ((s.setStatus x .running).setStack t (.invoke x :: fs)) := by
  have hready : ∀ p ∈ futures, (s.future p).status = .ready := by
    intro p hp
    have hframe := h.frames t ht (.mustWait [] (.pushControl x futures)) (hst ▸ mem_cons_self)
    exact (hframe p hp).2.resolve_left not_mem_nil
  obtain ⟨R, hok⟩ := h.entry ht hst
  have hx : (s.future x).status = .constructing := (hok.role _ mem_cons_self).2.1
  exact h.of_update ht hst [(x, .invoking)] (by simp [hx]) rfl
    (fun R hR ↦ hR.runPrepared hready) (fun _ ↦ .cons trivial (.refl _ _)) (refl _)

/-- A frame is left to another thread. -/
theorem Inv.moveFrame (h : Inv n s) {u : Nat} (ht : t < n) (hu : u < n) (htu : u ≠ t)
    (hst : s.thread t = f :: fs) (hf : s.FrameOk f) :
    Inv n ((s.setStack t fs).setStack u (f :: s.thread u)) := by
  refine h.of_roles rfl rfl rfl rfl rfl (perm_iff_count.mpr fun a ↦ ?_) fun v hv g hg ↦ ?_
  · have hlast : (held stackRoles n (update (update s.thread t fs) u
        (f :: s.thread u))).count a + (stackRoles (update s.thread t fs u)).count a =
        (held stackRoles n (update s.thread t fs)).count a +
          (stackRoles (f :: s.thread u)).count a := count_held_update hu _ a
    have hfirst : (held stackRoles n (update s.thread t fs)).count a +
        (stackRoles (s.thread t)).count a =
        (held stackRoles n s.thread).count a + (stackRoles fs).count a := count_held_update ht fs a
    rw [update_of_ne htu, stackRoles_cons, count_append] at hlast
    rw [hst, stackRoles_cons, count_append] at hfirst
    rw [setStack_thread, setStack_thread]
    omega
  · by_cases hvu : v = u
    · subst hvu
      have hg : g ∈ f :: s.thread v := by simpa using hg
      rcases mem_cons.mp hg with rfl | hg
      · exact .inr hf
      · exact .inl hg
    · have hg : g ∈ update s.thread t fs v := by simpa [update_of_ne hvu] using hg
      by_cases hvt : v = t
      · subst hvt
        rw [update_self] at hg
        exact .inl (hst ▸ mem_cons_of_mem _ hg)
      · rw [update_of_ne hvt] at hg
        exact .inl hg

end Hisab.Parallel.CallbackQueue
