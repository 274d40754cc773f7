import Hisab.Parallel.CallbackStacks

/-!
# Threads that wait for each other's locks

A thread waits for another when its next step takes a lock that the other holds. A function
that returns a value runs under the mutex of its future, and `push` takes `mutex_` there;
`try_invoke` takes the two in the other order. These are the only two threads that can wait
for each other.
-/

namespace Hisab.Parallel.CallbackQueue

open Base Relation Function List CallbackQueue TransGen

/-- `mutex_`, or the mutex of a future. -/
inductive Lock
  | mutex
  | future (x : Nat)
deriving Repr, DecidableEq

/-- The lock that the next step of the frame takes, where a body returns next. A waiter takes
the mutex of its future around the condition variable (`threaded_callback_queue.h:128–133`). -/
def wants (s : CallbackQueue) : QueueFrame → Option Lock
  | .loop | .push _ | .pushFront _ | .tryInvokeLock _ | .launch _ => some .mutex
  | .mustWait [] (.pushControl x _) | .tryInvokeLocked x | .register x [] | .registerLock _ x _
  | .blocked x | .signal x | .launching _ (x :: _) => some (.future x)
  | .invoke x => if (s.future x).returnsValue then some (.future x) else none
  | .body x => if (s.future x).returnsValue then none else some (.future x)
  | .signalling x _ => (s.future x).dependents.head?.map .future
  | _ => none

def holds (s : CallbackQueue) : Lock → QueueFrame → Bool
  | .mutex => holdsMutex
  | .future x => s.holdsFuture x

/-- Thread `t` waits for a lock that thread `u` holds. -/
def WaitsFor (n : Nat) (s : CallbackQueue) (t u : Nat) : Prop :=
  t < n ∧ u < n ∧ ∃ f fs L, s.thread t = f :: fs ∧ s.wants f = some L ∧
    (s.thread u).any (s.holds L) = true

/-- The body of `x` is inside `push`. -/
def pushesIn (x : Nat) : List QueueFrame → Bool
  | .push _ :: .body y :: _ => y == x
  | _ => false

/-- A thread holds `mutex_` in `try_invoke` for a task that returns a value, whose body is
inside `push`. -/
def Meets (n : Nat) (s : CallbackQueue) : Prop :=
  ∃ t < n, ∃ u < n, ∃ x, (s.thread t).head? = some (.tryInvokeLocked x) ∧
    pushesIn x (s.thread u) = true ∧ (s.future x).returnsValue = true

/-- The function of a task that returns a value calls `push` while no `try_invoke` for the task
holds `mutex_`, and `try_invoke` takes `mutex_` while that function is not inside `push`. -/
def locksApart (n : Nat) (s : CallbackQueue) (l : QueueStep) : Bool :=
  match l.action, s.thread l.thread with
  | .push _, .body x :: _ => !(s.future x).returnsValue ||
    (List.range n).all fun t ↦ (s.thread t).head? ≠ some (.tryInvokeLocked x)
  | .advance, .tryInvokeLock x :: _ => popFrontNullptr s.invokerQueue = [] ||
    !(s.future x).returnsValue || (List.range n).all fun t ↦ !pushesIn x (s.thread t)
  | _, _ => true

variable {n t u x : Nat} {s s' : CallbackQueue} {f g : QueueFrame} {fs stack : List QueueFrame}
  {L : Lock}

/-! ## Who can wait -/

theorem WaitsFor.intro (ht : t < n) (hu : u < n) (hst : s.thread t = f :: fs)
    (hw : s.wants f = some L) (hheld : (s.thread u).any (s.holds L) = true) : s.WaitsFor n t u :=
  ⟨ht, hu, f, fs, L, hst, hw, hheld⟩

theorem not_mutexFree (hu : u < n) (h : (s.thread u).any holdsMutex = true) :
    s.mutexFree n = false := all_eq_false.mpr ⟨u, mem_range.mpr hu, by simp [h]⟩

theorem not_futureFree (hu : u < n) (h : (s.thread u).any (s.holdsFuture x) = true) :
    s.futureFree n x = false := all_eq_false.mpr ⟨u, mem_range.mpr hu, by simp [h]⟩

/-- A thread that waits for another does not go on; one on a condition variable would not
either without its future being ready. -/
theorem WaitsFor.step_eq_none (h : s.WaitsFor n t u) (hblocked : ∀ x fs, s.thread t ≠ .blocked x :: fs) :
    s.step n ⟨t, .advance⟩ = none ∧ s.step n ⟨t, .finish⟩ = none := by
  obtain ⟨ht, hu, f, fs, L, hst, hw, hheld⟩ := h
  simp only [step, hst]
  have hmutex : L = .mutex → s.mutexFree n = false := by
    rintro rfl
    exact not_mutexFree hu hheld
  have hfuture : ∀ x, L = .future x → s.futureFree n x = false := by
    rintro x rfl
    exact not_futureFree hu hheld
  cases f with
  | loop | push _ | pushFront _ | tryInvokeLock _ | launch _ =>
    have hfree := hmutex (Option.some.inj hw).symm
    simp [advance, pop, pushBack, pushFront, tryInvokeLock, launch, hfree]
  | tryInvokeLocked x | registerLock _ x _ | signal x =>
    have hfree := hfuture x (Option.some.inj hw).symm
    simp [advance, tryInvokeLocked, registerLock, hfree]
  | blocked x => exact absurd hst (hblocked x fs)
  | mustWait rest use =>
    cases rest with
    | nil =>
      cases use with
      | pushControl x futures =>
        have hfree := hfuture x (Option.some.inj hw).symm
        simp [advance, mustNotWait, hfree]
      | _ => cases hw
    | cons p rest => cases hw
  | register d rest =>
    cases rest with
    | nil =>
      have hfree := hfuture d (Option.some.inj hw).symm
      simp [advance, register, hfree]
    | cons p rest => cases hw
  | launching index ds =>
    cases ds with
    | nil => cases hw
    | cons d ds =>
      have hfree := hfuture d (Option.some.inj hw).symm
      simp [advance, launching, hfree]
  | invoke x =>
    simp only [wants, ite_some_iff] at hw
    have hfree := hfuture x hw.2.symm
    simp [advance, enter, hfree, hw.1]
  | body x =>
    simp only [wants, Option.ite_none_left_eq_some, Option.some.injEq] at hw
    have hfree := hfuture x hw.2.symm
    simp [advance, finish, hfree, hw.1]
  | signalling x ds =>
    obtain ⟨d, hd, hL⟩ := Option.map_eq_some_iff.mp hw
    obtain ⟨deps, hdeps⟩ := head?_eq_some_iff.mp hd
    have hfree := hfuture d hL.symm
    simp [advance, signalling, hdeps, hfree]
  | _ => cases hw

/-- Two frames are not responsible for the same future. -/
theorem Inv.role_unique (h : Inv n s) (ht : t < n) (hst : s.thread t = f :: fs)
    {role role' : FutureRole} (hx : (x, role) ∈ frameRoles f) (hu : u < n)
    (hg : g ∈ s.thread u) (hx' : (x, role') ∈ frameRoles g) : u = t ∧ g = f := by
  have hperm : (held stackRoles n s.thread).Perm
      (stackRoles (s.thread t) ++ heldRest stackRoles n s.thread t) := held_perm ht
  have hnodup := h.ledger.nodup
  simp only [CallbackQueue.ledger, map_append] at hnodup
  have hnodup := (hperm.map Prod.fst).nodup_iff.mp (nodup_append.mp hnodup).2.1
  rw [hst, stackRoles_cons, append_assoc, map_append, nodup_append] at hnodup
  have hfst : x ∈ (frameRoles f).map Prod.fst := mem_map_of_mem hx
  have hother : (x, role') ∉ stackRoles fs ++ heldRest stackRoles n s.thread t := fun hmem ↦
    hnodup.2.2 x hfst x (mem_map_of_mem hmem) rfl
  have hut : u = t := by
    by_contra hne
    refine hother (mem_append_right _ (mem_flatMap.mpr ⟨u, ?_, ?_⟩))
    · exact (mem_erase_of_ne hne).mpr (mem_range.mpr hu)
    · exact mem_flatMap.mpr ⟨g, hg, hx'⟩
  subst hut
  rw [hst] at hg
  rcases mem_cons.mp hg with rfl | hg
  · exact ⟨rfl, rfl⟩
  · exact absurd (mem_append_left _ (mem_flatMap.mpr ⟨g, hg, hx'⟩)) hother

/-- A future whose mutex is held is past its registration. -/
theorem Inv.status_of_holdsFuture (h : Inv n s) (hu : u < n) (hg : g ∈ s.thread u)
    (hx : s.holdsFuture x g = true) :
    (s.future x).status ≠ .constructing ∧ (s.future x).status ≠ .onHold := by
  obtain ⟨role, hmem, hrole⟩ := exists_role_of_holdsFuture hx
  have hin : (x, role) ∈ (s.ledger n).roles :=
    mem_append_right _ (mem_held.mpr ⟨u, hu, mem_flatMap.mpr ⟨g, hg, hmem⟩⟩)
  have hok := (h.ledger.role _ hin).2
  rcases hrole with rfl | rfl | rfl
  · simp [show (s.future x).status = .running from hok.1]
  · simp [show (s.future x).status = .ready from hok]
  · simp [show (s.future x).status = .enqueued from hok]

/-- A frame that is responsible for a future finds its mutex free. -/
theorem Inv.not_held_of_role (h : Inv n s) (ht : t < n) (hst : s.thread t = f :: fs)
    {role : FutureRole} (hx : (x, role) ∈ frameRoles f) (hf : s.holdsFuture x f = false)
    (hu : u < n) : (s.thread u).any (s.holdsFuture x) = false := by
  rw [any_eq_false]
  intro g hg hholds
  obtain ⟨role', hmem, -⟩ := exists_role_of_holdsFuture hholds
  obtain ⟨-, rfl⟩ := h.role_unique ht hst hx hu hg hmem
  rw [hf] at hholds
  cases hholds

/-- The frames that wait for the mutex of a future that they are not responsible for. -/
theorem Inv.wants_cases (h : Inv n s) (ht : t < n) (hst : s.thread t = f :: fs)
    (hw : s.wants f = some (.future x)) (hu : u < n)
    (hheld : (s.thread u).any (s.holdsFuture x) = true) :
    f = .tryInvokeLocked x ∨ (∃ d rest, f = .registerLock d x rest) ∨ f = .blocked x := by
  have hrole : ∀ role, (x, role) ∈ frameRoles f → s.holdsFuture x f = false → False :=
    fun role hx hf ↦ by
      rw [h.not_held_of_role ht hst hx hf hu] at hheld
      cases hheld
  cases f with
  | tryInvokeLocked y =>
    obtain rfl : y = x := Lock.future.inj (Option.some.inj hw)
    exact .inl rfl
  | registerLock d y rest =>
    obtain rfl : y = x := Lock.future.inj (Option.some.inj hw)
    exact .inr (.inl ⟨d, rest, rfl⟩)
  | blocked y =>
    obtain rfl : y = x := Lock.future.inj (Option.some.inj hw)
    exact .inr (.inr rfl)
  | signal y =>
    obtain rfl : y = x := Lock.future.inj (Option.some.inj hw)
    exact (hrole _ mem_cons_self rfl).elim
  | mustWait rest use =>
    cases rest with
    | nil =>
      cases use with
      | pushControl y futures =>
        obtain rfl : y = x := Lock.future.inj (Option.some.inj hw)
        exact (hrole _ mem_cons_self rfl).elim
      | _ => cases hw
    | cons p rest => cases hw
  | register d rest =>
    cases rest with
    | nil =>
      obtain rfl : d = x := Lock.future.inj (Option.some.inj hw)
      exact (hrole _ mem_cons_self rfl).elim
    | cons p rest => cases hw
  | launching index ds =>
    cases ds with
    | nil => cases hw
    | cons d ds =>
      obtain rfl : d = x := Lock.future.inj (Option.some.inj hw)
      exact (hrole _ mem_cons_self rfl).elim
  | invoke y =>
    simp only [wants, ite_some_iff, Lock.future.injEq] at hw
    obtain ⟨-, rfl⟩ := hw
    exact (hrole _ mem_cons_self rfl).elim
  | body y =>
    simp only [wants, Option.ite_none_left_eq_some, Option.some.injEq, Lock.future.injEq] at hw
    obtain ⟨hreturns, rfl⟩ := hw
    exact (hrole _ mem_cons_self (by simp [holdsFuture, hreturns])).elim
  | signalling y ds =>
    -- A dependent of `y` is still being registered or on hold.
    simp only [wants, Option.map_eq_some_iff, Lock.future.injEq, exists_eq_right] at hw
    have hy : y < s.count := by
      obtain ⟨R, hok⟩ := h.entry ht hst
      exact (hok.role _ mem_cons_self).1
    obtain ⟨g, hg, hholds⟩ := any_eq_true.mp hheld
    obtain ⟨hc, ho⟩ := h.status_of_holdsFuture hu hg hholds
    rcases (h.ledger.dependents y hy x (mem_of_head? hw)).2.2 with hs | hs
    · exact absurd hs hc
    · exact absurd hs ho
  | _ => cases hw

/-! ## Cycles -/

theorem wantsMutex_of_wants (h : s.wants f = some .mutex) : wantsMutex f = true := by
  cases f with
  | loop | push _ | pushFront _ | tryInvokeLock _ | launch _ => rfl
  | mustWait rest use => cases rest <;> cases use <;> cases h
  | register d rest => cases rest <;> cases h
  | launching index ds => cases ds <;> cases h
  | invoke y | body y | signalling y ds => simp [wants] at h
  | _ => cases h

/-- Frames without locks hold none. -/
theorem Unlocked.not_holds (h : s.Unlocked fs) (L : Lock) : fs.any (s.holds L) = false := by
  rw [any_eq_false]
  intro g hg hholds
  have hlocks := (h g hg).1
  cases L with
  | mutex =>
    cases g with
    | tryInvokeLocked _ | launching _ _ => exact hlocks
    | _ => cases hholds
  | future x =>
    cases g with
    | body y => simp [holds, holdsFuture, hlocks.2] at hholds
    | signalling _ _ | pushFront _ => exact hlocks
    | _ => cases hholds

/-- A thread that waits for `mutex_` holds at most the mutex of one future, and that of a
pushed task only inside `push`. -/
theorem StacksOk.holds_of_wants_mutex (h : StacksOk n s) (ht : t < n)
    (hst : s.thread t = f :: fs) (hw : s.wants f = some .mutex)
    (hheld : (f :: fs).any (s.holds L) = true) :
    ∃ x, L = .future x ∧
      (s.IsUser x → pushesIn x (f :: fs) = true ∧ (s.future x).returnsValue = true) := by
  obtain ⟨hf, hfs⟩ := h.top ht hst
  have hbelow : s.Unlocked fs → s.holds L f = true := fun hlow ↦ by
    rwa [any_cons, hlow.not_holds, Bool.or_false] at hheld
  cases f with
  | loop =>
    have hl := hbelow hf.2
    cases L <;> cases hl
  | tryInvokeLock y =>
    have hl := hbelow hf.2.2
    cases L <;> cases hl
  | launch ds =>
    have hl := hbelow hf.2
    cases L <;> cases hl
  | pushFront y =>
    have hl := hbelow hf.2.2
    cases L with
    | mutex => cases hl
    | future x =>
      obtain rfl : y = x := by simpa [holds, holdsFuture] using hl
      refine ⟨y, rfl, fun hu ↦ ?_⟩
      have hkind := hu.2
      simp [hf.2.1.2] at hkind
  | push w =>
    rcases hf.2 with hlow | ⟨y, gs, rfl, hy⟩
    · have hl := hbelow hlow
      cases L <;> cases hl
    · obtain ⟨hbody, -⟩ := hfs
      have hgs : s.Unlocked gs := hbody.2.2.resolve_right fun hhigh ↦ by
        have hkind := hy.2
        rcases h.kinds.isHighPriority y hy.1 hhigh with hk | hk <;> simp [hk] at hkind
      rw [any_cons, any_cons, hgs.not_holds] at hheld
      cases L with
      | mutex => cases hheld
      | future x =>
        obtain ⟨rfl, hreturns⟩ : y = x ∧ (s.future y).returnsValue = true := by
          simpa [holds, holdsFuture] using hheld
        exact ⟨y, rfl, fun _ ↦ ⟨by simp [pushesIn], hreturns⟩⟩
  | _ => cases wantsMutex_of_wants hw

/-- A thread that waits for the mutex of a future and holds a lock is in `try_invoke`. -/
theorem StacksOk.holds_of_wants_future (h : StacksOk n s) (hinv : Inv n s) (ht : t < n)
    (hst : s.thread t = f :: fs) (hw : s.wants f = some (.future x)) (hu : u < n)
    (hwait : (s.thread u).any (s.holdsFuture x) = true)
    (hheld : (f :: fs).any (s.holds L) = true) :
    f = .tryInvokeLocked x ∧ s.IsUser x ∧ L = .mutex := by
  obtain ⟨hf, hfs⟩ := h.top ht hst
  have hbelow : s.Unlocked fs → s.holds L f = true := fun hlow ↦ by
    rwa [any_cons, hlow.not_holds, Bool.or_false] at hheld
  rcases hinv.wants_cases ht hst hw hu hwait with rfl | ⟨d, rest, rfl⟩ | rfl
  · have hl := hbelow hf.2.2
    cases L with
    | mutex => exact ⟨rfl, hf.2.1, rfl⟩
    | future y => cases hl
  · have hl := hbelow hf.2.2
    cases L <;> cases hl
  · have hl := hbelow hf.2
    cases L <;> cases hl

/-- What a thread in a cycle does: it is in `try_invoke` for a pushed task and holds `mutex_`,
or it waits for `mutex_` and holds the mutex of one future. -/
inductive InCycle (n : Nat) (s : CallbackQueue) (t : Nat) : Prop
  | tries (x : Nat) (htop : (s.thread t).head? = some (.tryInvokeLocked x)) (hx : s.IsUser x)
      (hholds : ∀ L, (s.thread t).any (s.holds L) = true → L = .mutex)
  | wantsMutex (hwants : ∀ u, s.WaitsFor n t u → (s.thread u).any (s.holds .mutex) = true)
      (hholds : ∀ L, (s.thread t).any (s.holds L) = true → ∃ x, L = .future x ∧
        (s.IsUser x → pushesIn x (s.thread t) = true ∧ (s.future x).returnsValue = true))

theorem StacksOk.inCycle (h : StacksOk n s) (hinv : Inv n s)
    (hc : TransGen (s.WaitsFor n) t t) : s.InCycle n t := by
  obtain ⟨u, ⟨ht, hu, f, fs, L, hst, hw, hheld⟩, -⟩ := head'_iff.mp hc
  obtain ⟨v, -, ⟨-, -, -, -, L', -, -, hheld'⟩⟩ := tail'_iff.mp hc
  cases L with
  | mutex =>
    refine .wantsMutex (fun u ⟨_, _, f', fs', L₂, hst', hw', hheld₂⟩ ↦ ?_) fun L hL ↦ ?_
    · rw [hst] at hst'
      cases hst'
      obtain rfl := Option.some.inj (hw.symm.trans hw')
      exact hheld₂
    · rw [hst] at hL ⊢
      exact h.holds_of_wants_mutex ht hst hw hL
  | future x =>
    rw [hst] at hheld'
    obtain ⟨rfl, hx, -⟩ := h.holds_of_wants_future hinv ht hst hw hu hheld hheld'
    refine .tries x (by rw [hst]; rfl) hx fun L hL ↦ ?_
    rw [hst] at hL
    exact (h.holds_of_wants_future hinv ht hst hw hu hheld hL).2.2

theorem exists_of_head? (h : (s.thread t).head? = some f) : ∃ fs, s.thread t = f :: fs := by
  cases hst : s.thread t with
  | nil => simp [hst] at h
  | cons g fs => exact ⟨fs, by simpa [hst] using h⟩

theorem exists_of_pushesIn (h : pushesIn x stack = true) :
    ∃ w gs, stack = .push w :: .body x :: gs := by
  unfold pushesIn at h
  split at h
  next w y gs => exact ⟨w, gs, by rw [eq_of_beq h]⟩
  · cases h

/-- The next thread of a cycle. -/
theorem exists_next_of_cycle {r : Nat → Nat → Prop} (h : TransGen r t t) :
    ∃ u, r t u ∧ TransGen r u u := by
  obtain ⟨u, hu, hut⟩ := head'_iff.mp h
  exact ⟨u, hu, tail' hut hu⟩

/-- The thread in `try_invoke` waits for the body of its task, which is inside `push`. -/
theorem StacksOk.meets_of_tries (h : StacksOk n s) (hinv : Inv n s)
    (hc : TransGen (s.WaitsFor n) t t) (htop : (s.thread t).head? = some (.tryInvokeLocked x))
    (hx : s.IsUser x) : s.Meets n := by
  obtain ⟨u, ⟨ht, hu, f, fs, L, hst, hw, hheld⟩, hcu⟩ := exists_next_of_cycle hc
  rw [hst] at htop
  obtain rfl : f = .tryInvokeLocked x := Option.some.inj htop
  cases hw
  cases h.inCycle hinv hcu with
  | tries y _ _ hholds => cases hholds _ hheld
  | wantsMutex _ hholds =>
    obtain ⟨y, hy, hpushes⟩ := hholds _ hheld
    cases hy
    exact ⟨t, ht, u, hu, x, by rw [hst]; rfl, hpushes hx⟩

/-- The only cycles: `try_invoke` with `mutex_` against a body inside `push`. -/
theorem StacksOk.cycle_iff (h : StacksOk n s) (hinv : Inv n s) :
    (∃ t, TransGen (s.WaitsFor n) t t) ↔ s.Meets n := by
  constructor
  · rintro ⟨t, hc⟩
    cases h.inCycle hinv hc with
    | tries x htop hx _ => exact h.meets_of_tries hinv hc htop hx
    | wantsMutex hwants _ =>
      obtain ⟨u, hu, hcu⟩ := exists_next_of_cycle hc
      have hmutex := hwants u hu
      cases h.inCycle hinv hcu with
      | tries x htop hx _ => exact h.meets_of_tries hinv hcu htop hx
      | wantsMutex _ hholds =>
        obtain ⟨x, hx, -⟩ := hholds _ hmutex
        cases hx
  · rintro ⟨t, ht, u, hu, x, htop, hpushes, hreturns⟩
    obtain ⟨fs, hst⟩ := exists_of_head? htop
    obtain ⟨w, gs, hsu⟩ := exists_of_pushesIn hpushes
    have htu : s.WaitsFor n t u := by
      refine .intro ht hu hst rfl ?_
      simp [hsu, holds, holdsFuture, hreturns]
    have hut : s.WaitsFor n u t := by
      refine .intro hu ht hsu rfl ?_
      simp [hst, holds, holdsMutex]
    exact ⟨t, head htu (.single hut)⟩

/-- The future of a body is in range. -/
theorem StacksOk.lt_of_body (h : StacksOk n s) (ht : t < n) {g : List QueueFrame}
    (hst : s.thread t = g ++ .body x :: fs) : x < s.count := by
  have hstack := h.frames t ht
  rw [hst] at hstack
  clear hst
  induction g with
  | nil => exact hstack.1.2.1
  | cons f fs' ih => exact ih hstack.2

/-- A step after which a thread in `try_invoke` meets a body in `push` does not meet the
condition. -/
theorem Moves.not_locksApart {l : QueueStep} (hm : s.Moves l s') (h : StacksOk n s)
    (hs : ¬s.Meets n) (hs' : s'.Meets n) : locksApart n s l = false := by
  obtain ⟨-, hext, stack, hthread, -, htop⟩ := hm
  obtain ⟨t, ht, u, hu, x, htry, hpush, hreturns⟩ := hs'
  obtain ⟨a, action⟩ := l
  obtain ⟨w, gs, hsu⟩ := exists_of_pushesIn hpush
  have hother : ∀ i, i ≠ a → s'.thread i = s.thread i := fun i hi ↦ by rw [hthread, update_of_ne hi]
  have hself : s'.thread a = stack := by rw [hthread, update_self]
  by_cases hta : t = a
  · -- The step is that of the thread in `try_invoke`.
    subst hta
    have hne : u ≠ t := by
      rintro rfl
      simp [hsu] at htry
    have hlt : x < s.count := h.lt_of_body hu (g := [.push w]) ((hother u hne).symm.trans hsu)
    rw [hext.returnsValue x hlt] at hreturns
    rw [hother u hne] at hpush
    rw [hself] at htry
    rcases htop with hplain | ⟨y, fs, hst, rfl, hq, rfl⟩ | ⟨v, y, fs, -, -, rfl⟩
    · cases stack with
      | nil => cases htry
      | cons f fs =>
        obtain rfl : f = .tryInvokeLocked x := Option.some.inj htry
        exact hplain.elim
    · obtain rfl : y = x := by simpa using htry
      have hall : (range n).all (fun t ↦ !pushesIn y (s.thread t)) = false := by
        rw [all_eq_false]
        exact ⟨u, mem_range.mpr hu, by simp [hpush]⟩
      simp [locksApart, hst, hq, hreturns, hall]
    · simp at htry
  · rw [hother t hta] at htry
    by_cases hua : u = a
    · -- The step is that of the body.
      subst hua
      rw [hself] at hsu
      subst hsu
      rcases htop with hplain | ⟨y, fs, -, -, -, heq⟩ | ⟨v, y, fs, hst, ⟨r, rfl⟩, heq⟩
      · have hbody := (hplain (.body x) mem_cons_self).1.2
        rw [hreturns] at hbody
        cases hbody
      · cases heq
      · obtain ⟨rfl, rfl, rfl⟩ := heq
        have hlt : x < s.count := h.lt_of_body hu (g := []) hst
        rw [hext.returnsValue x hlt] at hreturns
        have hall : (range n).all
            (fun t ↦ decide ((s.thread t).head? ≠ some (.tryInvokeLocked x))) = false := by
          rw [all_eq_false]
          exact ⟨t, mem_range.mpr ht, by simp [htry]⟩
        simp only [locksApart, hst, hreturns, hall]
        rfl
    · rw [hother u hua] at hpush
      have hlt : x < s.count := by
        obtain ⟨w', gs', hsu'⟩ := exists_of_pushesIn hpush
        exact h.lt_of_body hu (g := [.push w']) hsu'
      rw [hext.returnsValue x hlt] at hreturns
      exact absurd ⟨t, ht, u, hu, x, htry, hpush, hreturns⟩ hs

/-- A step that does not meet the condition makes the two threads wait for each other. -/
theorem StacksOk.meets_of_not_locksApart (h : StacksOk n s) {l : QueueStep}
    (hl : locksApart n s l = false) (hs : s.step n l = some s') : s'.Meets n := by
  obtain ⟨a, action⟩ := l
  obtain ⟨ha, hs⟩ := Option.ite_none_right_eq_some.mp hs
  unfold locksApart at hl
  split at hl
  next returnsValue x fs haction hst =>
    subst haction
    simp only [hst, ite_some_iff] at hs
    obtain ⟨-, rfl⟩ := hs
    simp only [Bool.or_eq_false_iff, Bool.not_eq_false', all_eq_false, mem_range] at hl
    obtain ⟨hreturns, t, ht, htry⟩ := hl
    have htry : (s.thread t).head? = some (.tryInvokeLocked x) := by simpa using htry
    have hne : t ≠ a := by
      rintro rfl
      simp [hst] at htry
    have hlt : x < s.count := h.lt_of_body ha (g := []) hst
    refine ⟨t, ht, a, ha, x, ?_, ?_, ?_⟩
    · simp [setStack, create, setFuture, update_of_ne hne, htry]
    · simp [setStack, pushesIn]
    · simp [setStack, create, setFuture, update_of_ne (Nat.ne_of_lt hlt), hreturns]
  next x fs haction hst =>
    subst haction
    simp only [hst, CallbackQueue.advance, CallbackQueue.tryInvokeLock, ite_some_iff] at hs
    obtain ⟨-, rfl⟩ := hs
    simp only [Bool.or_eq_false_iff, Bool.not_eq_false', all_eq_false, mem_range,
      decide_eq_false_iff_not] at hl
    obtain ⟨⟨hq, hreturns⟩, u, hu, hpush⟩ := hl
    have hne : u ≠ a := by
      rintro rfl
      simp [hst, pushesIn] at hpush
    refine ⟨a, ha, u, hu, x, ?_, ?_, hreturns⟩
    · simp [setStack, hq]
    · simpa [setStack, update_of_ne hne] using hpush
  · cases hl

/-- When bodies call only `push` and every step meets the condition, no state that the queue
reaches has threads that wait for each other's locks in a cycle, with any number of threads and
any interleaving; and a next step brings a cycle about exactly when it does not meet it. -/
theorem no_lock_cycle (n workers : Nat) (s : CallbackQueue)
    (h : ((system n workers).restrict fun s l ↦
      bodiesOnlyPush s l = true ∧ locksApart n s l = true).Reachable s) :
    (¬∃ t, TransGen (s.WaitsFor n) t t) ∧ ∀ l s', bodiesOnlyPush s l = true → s.step n l = some s' →
        ((∃ t, TransGen (s'.WaitsFor n) t t) ↔ locksApart n s l = false) := by
  have hinv : Inv n s ∧ StacksOk n s ∧ ¬s.Meets n := by
    refine h.invariant (I := fun s ↦ Inv n s ∧ StacksOk n s ∧ ¬s.Meets n) ?_ ?_
    · rintro s rfl
      refine ⟨.start n workers, .start n workers, ?_⟩
      rintro ⟨t, -, -, -, x, htry, -⟩
      simp only [start] at htry
      split at htry <;> cases htry
    · rintro s l t ⟨hinv, hstacks, hmeets⟩ ⟨hstep, honly, hapart⟩
      have hm := hstacks.step hinv honly hstep
      refine ⟨hinv.step hstep, hstacks.of_moves hm, fun hmeets' ↦ ?_⟩
      rw [hm.not_locksApart hstacks hmeets hmeets'] at hapart
      cases hapart
  obtain ⟨hinv, hstacks, hmeets⟩ := hinv
  refine ⟨fun hc ↦ hmeets ((hstacks.cycle_iff hinv).mp hc), fun l s' honly hstep ↦ ?_⟩
  have hm := hstacks.step hinv honly hstep
  rw [(hstacks.of_moves hm).cycle_iff (hinv.step hstep)]
  exact ⟨hm.not_locksApart hstacks hmeets, fun hl ↦ hstacks.meets_of_not_locksApart hl hstep⟩

/-- The client pushes a task that returns a value and another one, and waits for the first;
after its unlocked check the worker takes that task and runs it, and the client takes
`mutex_`. -/
def waitWhileRunning : List QueueStep :=
  [⟨1, .push true⟩, ⟨1, .advance⟩, ⟨1, .push false⟩, ⟨1, .advance⟩, ⟨1, .wait [0]⟩, ⟨1, .advance⟩,
    ⟨1, .advance⟩, ⟨0, .advance⟩, ⟨0, .advance⟩, ⟨1, .advance⟩]

/-- There is no cycle while the body does not push. -/
theorem wait_while_running : ∃ s, ((system 2 1).restrict fun s l ↦
    bodiesOnlyPush s l = true ∧ locksApart 2 s l = true).Reachable s ∧
      (s.thread 1).head? = some (.tryInvokeLocked 0) ∧ (s.thread 0).head? = some (.body 0) ∧
        ¬∃ t, TransGen (s.WaitsFor 2) t t := by
  let step s l := if bodiesOnlyPush s l ∧ locksApart 2 s l then step 2 s l else none
  let s := (waitWhileRunning.foldlM step (start 1)).get rfl
  have hs : ((system 2 1).restrict fun s l ↦
      bodiesOnlyPush s l = true ∧ locksApart 2 s l = true).Reachable s := by
    refine ⟨_, waitWhileRunning, rfl, .of_foldlM (fun s l t h ↦ ?_) (Option.some_get _).symm⟩
    obtain ⟨hl, hstep⟩ := Option.ite_none_right_eq_some.mp h
    exact ⟨hstep, hl⟩
  exact ⟨s, hs, rfl, rfl, (no_lock_cycle 2 1 s hs).1⟩

/-- Then the task pushes another one. -/
def pushWhileTried : List QueueStep := waitWhileRunning ++ [⟨0, .push false⟩]

/-- When the body pushes there, the client holds `mutex_` and waits for the mutex of the task,
and the worker holds that one and waits for `mutex_`: no step is left. -/
theorem push_while_tried : ∃ s, ((system 2 1).restrict fun s l ↦
    bodiesOnlyPush s l = true).Reachable s ∧ (∃ t, TransGen (s.WaitsFor 2) t t) ∧
      ∀ l, s.step 2 l = none := by
  let step s l := if bodiesOnlyPush s l then step 2 s l else none
  let s := (pushWhileTried.foldlM step (start 1)).get rfl
  have hs : ((system 2 1).restrict fun s l ↦ bodiesOnlyPush s l = true).Reachable s := by
    refine ⟨_, pushWhileTried, rfl, .of_foldlM (fun s l t h ↦ ?_) (Option.some_get _).symm⟩
    obtain ⟨hl, hstep⟩ := Option.ite_none_right_eq_some.mp h
    exact ⟨hstep, hl⟩
  have h01 : s.WaitsFor 2 0 1 := .intro (by decide) (by decide) rfl rfl rfl
  have h10 : s.WaitsFor 2 1 0 := .intro (by decide) (by decide) rfl rfl rfl
  refine ⟨s, hs, ⟨0, head h01 (.single h10)⟩, ?_⟩
  rintro ⟨t, action⟩
  match t with
  | 0 | 1 => cases action <;> rfl
  | t + 2 => exact if_neg (by simp)

end Hisab.Parallel.CallbackQueue
