import Hisab.Base.MachineIntegers
import Hisab.Base.TransitionSystem

/-!
# Functors with `Initialize` and `Reduce`

`parallel_for` for such functors (`parallel_tools.h:124–183`) over the `std_thread` backend
(`std_thread/parallel_tools_impl.h:42–80`). `Execute` reads a `thread_local` flag, of which
there is one for each thread and each functor type, and it is never cleared.
-/

namespace Hisab.Parallel

open Base Function List List.Subset

/-- How far the `Execute` of a chunk is on the thread that took it: in `Initialize`, past the
test of the flag, in the functor's call operator, or back from it. -/
inductive ExecuteStage
  | initializing
  | ready
  | running
  | done
deriving Repr, DecidableEq

/-- A chunk `[first, last)` of the range, queued or taken by a thread. -/
structure Chunk (T : Type) where
  first : Nat
  last : Nat
  taken : Option (T × ExecuteStage) := none
deriving Repr, DecidableEq

/-- The loop that queues the chunks, `proxy.join()` or the inline `Execute`, and the return. -/
inductive ForPhase
  | dispatching
  | joining
  | returned
deriving Repr, DecidableEq

/-- One call of `parallel_for`, with the number of its calls of `Reduce`. A call that runs
inline names its own thread. -/
structure ForCall (T O : Type) where
  functor : O
  last : Nat
  grain : Nat
  next : Nat
  phase : ForPhase
  inlineOn : Option T := none
  chunks : List (Chunk T) := []
  reduces : Nat := 0
deriving Repr, DecidableEq

/-- The arguments of a call, and what it reads of its surroundings. -/
structure ForRequest (T O : Type) where
  functor : O
  first : Nat
  last : Nat
  grain : Nat
  caller : T
  threadNumber : Nat
  nestedActivated : Bool
  parallelScope : Bool
deriving Repr, DecidableEq

/-- The steps of the calls and of the threads; a call and its chunks are named by their
positions. -/
inductive ForStep (T O : Type)
  | call (r : ForRequest T O)
  | dispatch (c : Nat)
  | enter (c j : Nat) (t : T)
  | callInitialize (c j : Nat)
  | begin (c j : Nat)
  | finish (c j : Nat)
  | reduce (c : Nat)
deriving Repr, DecidableEq

/-- The flags and the calls. `entered` and `initialized` hold the threads with the functors
whose `Execute` they entered and whose `Initialize` they ran, `begun` the threads with the
calls of which they began a chunk; no step reads these three. -/
structure ForState (T F O : Type) where
  flag : T → F → Bool := fun _ _ ↦ false
  calls : List (ForCall T O) := []
  entered : List (T × O) := []
  initialized : List (T × O) := []
  begun : List (T × Nat) := []

namespace ForRequest

variable {T O : Type}

/-- The grain that replaces one of zero (`std_thread/parallel_tools_impl.h:60–65`). -/
def effectiveGrain (r : ForRequest T O) : Nat :=
  if r.grain = 0 then max 1 (SizeT.sub r.last r.first / SizeT.mul r.threadNumber 4)
  else r.grain

/-- The call when its range has been looked at (`std_thread/parallel_tools_impl.h:46–69`). -/
def start (r : ForRequest T O) : ForCall T O :=
  let n := SizeT.sub r.last r.first
  if n = 0 then
    { functor := r.functor, last := r.last, grain := r.grain, next := r.last, phase := .joining }
  else if n ≤ r.grain ∨ (!r.nestedActivated && r.parallelScope) then
    { functor := r.functor, last := r.last, grain := r.grain, next := r.last, phase := .joining
      inlineOn := some r.caller, chunks := [{ first := r.first, last := r.last }] }
  else
    { functor := r.functor, last := r.last, grain := r.effectiveGrain, next := r.first
      phase := .dispatching }

end ForRequest

namespace ForCall

variable {T O : Type}

/-- One turn of the loop that queues the chunks (`std_thread/parallel_tools_impl.h:71–75`). -/
def dispatch (c : ForCall T O) : ForCall T O :=
  if c.next < c.last then
    { c with
      chunks := c.chunks ++ [{ first := c.next, last := min (SizeT.add c.next c.grain) c.last }]
      next := SizeT.add c.next c.grain }
  else { c with phase := .joining }

/-- Chunk `j` is now `taken`. -/
def take (c : ForCall T O) (j : Nat) (k : Chunk T) (taken : T × ExecuteStage) : ForCall T O :=
  { c with chunks := c.chunks.set j { k with taken := some taken } }

/-- Every chunk's `Execute` has returned. -/
def allDone (c : ForCall T O) : Bool := c.chunks.all fun k ↦ (k.taken.map Prod.snd) == some .done

end ForCall

namespace ForState

variable {T F O : Type} (typeOf : O → F)

/-- Chunk `j` of call `c`, with its call. -/
def chunkAt (s : ForState T F O) (c j : Nat) : Option (ForCall T O × Chunk T) :=
  s.calls[c]?.bind fun call ↦ call.chunks[j]?.map fun k ↦ (call, k)

/-- Thread `t` takes chunk `j` of call `c` to a stage of `Execute`. -/
def take (s : ForState T F O) (c j : Nat) (call : ForCall T O) (k : Chunk T) (t : T)
    (stage : ExecuteStage) : ForState T F O :=
  { s with calls := s.calls.set c (call.take j k (t, stage)) }

/-- One step of the calls and of the threads; `none` when it is not enabled. -/
def step [DecidableEq T] [DecidableEq F] (s : ForState T F O) :
    ForStep T O → Option (ForState T F O)
  | .call r =>
    -- Without a thread the estimate of the grain divides by zero.
    if 0 < r.threadNumber then some { s with calls := s.calls ++ [r.start] } else none
  | .dispatch c =>
    match s.calls[c]? with
    | some call =>
      if call.phase = .dispatching then some { s with calls := s.calls.set c call.dispatch }
      else none
    | none => none
  | .enter c j t =>
    match s.chunkAt c j with
    | some (call, k) =>
      if k.taken = none ∧ call.inlineOn.getD t = t then
        let stage := if s.flag t (typeOf call.functor) then .ready else .initializing
        some { s.take c j call k t stage with entered := (t, call.functor) :: s.entered }
      else none
    | none => none
  | .callInitialize c j =>
    match s.chunkAt c j with
    | some (call, k) =>
      match k.taken with
      | some (t, .initializing) =>
        some { s.take c j call k t .ready with
          flag := update s.flag t (update (s.flag t) (typeOf call.functor) true)
          initialized := (t, call.functor) :: s.initialized }
      | _ => none
    | none => none
  | .begin c j =>
    match s.chunkAt c j with
    | some (call, k) =>
      match k.taken with
      | some (t, .ready) => some { s.take c j call k t .running with begun := (t, c) :: s.begun }
      | _ => none
    | none => none
  | .finish c j =>
    match s.chunkAt c j with
    | some (call, k) =>
      match k.taken with
      | some (t, .running) => some (s.take c j call k t .done)
      | _ => none
    | none => none
  | .reduce c =>
    match s.calls[c]? with
    | some call =>
      if call.phase = .joining ∧ call.allDone then
        some { s with
          calls := s.calls.set c { call with phase := .returned, reduces := call.reduces + 1 } }
      else none
    | none => none

/-- Calls of `parallel_for` from any threads, and their runs. -/
def system [DecidableEq T] [DecidableEq F] : TransitionSystem (ForState T F O) (ForStep T O) where
  init s := s = {}
  step s l t := s.step typeOf l = some t

/-- Every thread that began a chunk of a call has run `Initialize` on the call's functor. -/
def InitializedBeforeChunks (s : ForState T F O) : Prop :=
  ∀ e ∈ s.begun, ∃ call, s.calls[e.2]? = some call ∧ (e.1, call.functor) ∈ s.initialized

/-- A thread enters the `Execute` of one functor object only among those of a type. -/
def SameFunctor (s : ForState T F O) (l : ForStep T O) : Prop :=
  ∀ c j t call k, l = .enter c j t → s.chunkAt c j = some (call, k) →
    ∀ e ∈ s.entered, e.1 = t → typeOf e.2 = typeOf call.functor → e.2 = call.functor

/-! ## The invariant -/

/-- A chunk past the test of the flag runs on a thread that initialized the functor. -/
def ChunkOk (s : ForState T F O) (functor : O) (k : Chunk T) : Prop :=
  match k.taken with
  | none => True
  | some (t, .initializing) => (t, functor) ∈ s.entered
  | some (t, _) => (t, functor) ∈ s.initialized

/-- Flags, logs and chunks agree. -/
structure Inv (s : ForState T F O) : Prop where
  entered : s.initialized ⊆ s.entered
  flag : ∀ t f, s.flag t f = true → ∃ o, typeOf o = f ∧ (t, o) ∈ s.initialized
  chunks : ∀ call ∈ s.calls, ∀ k ∈ call.chunks, s.ChunkOk call.functor k
  begun : s.InitializedBeforeChunks

variable {typeOf} {s t : ForState T F O} {call : ForCall T O} {k : Chunk T}

theorem chunkAt_eq_some {c j : Nat} :
    s.chunkAt c j = some (call, k) ↔ s.calls[c]? = some call ∧ call.chunks[j]? = some k := by
  simp only [chunkAt, Option.bind_eq_some_iff, Option.map_eq_some_iff, Prod.mk.injEq]
  constructor
  · rintro ⟨_, hc, _, hk, rfl, rfl⟩
    exact ⟨hc, hk⟩
  · rintro ⟨hc, hk⟩
    exact ⟨call, hc, k, hk, rfl, rfl⟩

/-- Longer logs leave a chunk right. -/
theorem ChunkOk.mono {functor : O} (h : s.ChunkOk functor k) (he : s.entered ⊆ t.entered)
    (hi : s.initialized ⊆ t.initialized) : t.ChunkOk functor k := by
  unfold ChunkOk at h ⊢
  split at h
  · trivial
  · exact he h
  · exact hi h

/-- A call that is replaced by one of the same functor, with longer logs. -/
theorem InitializedBeforeChunks.set (h : s.InitializedBeforeChunks) {c : Nat}
    {call call' : ForCall T O} (hc : s.calls[c]? = some call)
    (hf : call'.functor = call.functor) (ht : t.calls = s.calls.set c call')
    (hi : s.initialized ⊆ t.initialized)
    (hb : ∀ e ∈ t.begun, e ∈ s.begun ∨ e.2 = c ∧ (e.1, call.functor) ∈ t.initialized) :
    t.InitializedBeforeChunks := by
  have hlt : c < s.calls.length := (List.getElem?_eq_some_iff.mp hc).1
  intro e he
  rw [ht, getElem?_set]
  rcases hb e he with hold | ⟨rfl, hnew⟩
  · obtain ⟨old, hold, hmem⟩ := h e hold
    by_cases hec : c = e.2
    · rw [if_pos hec, if_pos hlt]
      rw [← hec, hc, Option.some.injEq] at hold
      exact ⟨call', rfl, hi (by rw [hf, hold]; exact hmem)⟩
    · rw [if_neg hec]
      exact ⟨old, hold, hi hmem⟩
  · rw [if_pos rfl, if_pos hlt]
    exact ⟨call', rfl, by rw [hf]; exact hnew⟩

/-- A thread takes a chunk to its next stage, and the logs grow. -/
theorem Inv.take (h : Inv typeOf s) {c j : Nat} {i : T} {stage : ExecuteStage}
    (hk : s.chunkAt c j = some (call, k)) (ht : t.calls = s.calls.set c (call.take j k (i, stage)))
    (he : s.entered ⊆ t.entered) (hi : s.initialized ⊆ t.initialized)
    (hei : t.initialized ⊆ t.entered)
    (hflag : ∀ t' f, t.flag t' f = true → ∃ o, typeOf o = f ∧ (t', o) ∈ t.initialized)
    (hchunk : t.ChunkOk call.functor { k with taken := some (i, stage) }) 
    (hb : ∀ e ∈ t.begun, e ∈ s.begun ∨ e.2 = c ∧ (e.1, call.functor) ∈ t.initialized) :
    Inv typeOf t where
  entered := hei
  flag := hflag
  chunks call' hc' k' hk' := by
    have hcall : s.calls[c]? = some call := (chunkAt_eq_some.mp hk).1
    rw [ht] at hc'
    rcases mem_or_eq_of_mem_set hc' with hc' | rfl
    · exact (h.chunks call' hc' k' hk').mono he hi
    · rcases mem_or_eq_of_mem_set hk' with hk' | rfl
      · exact (h.chunks call (mem_of_getElem? hcall) k' hk').mono he hi
      · exact hchunk
  begun :=
    have hf : (call.take j k (i, stage)).functor = call.functor := rfl
    h.begun.set (chunkAt_eq_some.mp hk).1 hf ht hi hb

theorem Inv.chunkOk (h : Inv typeOf s) {c j : Nat} (hk : s.chunkAt c j = some (call, k)) :
    s.ChunkOk call.functor k := by
  obtain ⟨hc, hj⟩ := chunkAt_eq_some.mp hk
  exact h.chunks call (mem_of_getElem? hc) k (mem_of_getElem? hj)

/-- A call is replaced by one of the same functor whose chunks are right. -/
theorem Inv.setCall (h : Inv typeOf s) {c : Nat} {call call' : ForCall T O}
    (hc : s.calls[c]? = some call) (hf : call'.functor = call.functor)
    (hk : ∀ k ∈ call'.chunks, s.ChunkOk call'.functor k) :
    Inv typeOf { s with calls := s.calls.set c call' } where
  entered := h.entered
  flag := h.flag
  chunks r hr k hkr := by
    rcases mem_or_eq_of_mem_set hr with hr | rfl
    · exact h.chunks r hr k hkr
    · exact hk k hkr
  begun := h.begun.set hc hf rfl (refl _) fun e he ↦ .inl he

/-- A call starts with no chunk taken. -/
private theorem taken_start (r : ForRequest T O) (k : Chunk T) (hk : k ∈ r.start.chunks) :
    k.taken = none := by
  unfold ForRequest.start at hk
  dsimp only at hk
  split at hk
  · cases hk
  · split at hk
    · rw [mem_singleton.mp hk]
    · cases hk

theorem dispatch_functor (call : ForCall T O) : call.dispatch.functor = call.functor := by
  unfold ForCall.dispatch
  split <;> rfl

/-- A flag that is set after the flag of `(i, f)` is set, elsewhere, was set before. -/
private theorem flag_of_update [DecidableEq T] [DecidableEq F] {flag : T → F → Bool}
    {i i' : T} {f f' : F}
    (hset : update flag i (update (flag i) f true) i' f' = true)
    (hne : ¬(i' = i ∧ f' = f)) : flag i' f' = true := by
  by_cases hi : i' = i
  · subst hi
    rwa [update_self, update_of_ne fun hf ↦ hne ⟨rfl, hf⟩] at hset
  · rwa [update_of_ne hi] at hset

/-- A call changes its chunks by fresh ones only. -/
private theorem chunkOk_dispatch (h : ∀ k ∈ call.chunks, s.ChunkOk call.functor k) :
    ∀ k ∈ call.dispatch.chunks, s.ChunkOk call.dispatch.functor k := by
  intro k hk
  unfold ForCall.dispatch at hk ⊢
  split at hk
  next hlt =>
    rw [if_pos hlt]
    rcases mem_append.mp hk with hk | hk
    · exact h k hk
    · rw [mem_singleton.mp hk]
      trivial
  next hge =>
    rw [if_neg hge]
    exact h k hk

variable [DecidableEq T] [DecidableEq F]

/-- A step keeps the invariant when a thread that enters `Execute` entered none for another
functor object of the type. -/
theorem Inv.step (h : Inv typeOf s) {l : ForStep T O} (hs : s.step typeOf l = some t)
    (hl : SameFunctor typeOf s l) : Inv typeOf t := by
  cases l with
  | call r =>
    obtain ⟨-, rfl⟩ := ite_some_iff.mp hs
    refine ⟨h.entered, h.flag, fun call hc k hk ↦ ?_, fun e he ↦ ?_⟩
    · rcases mem_append.mp hc with hc | hc
      · exact h.chunks call hc k hk
      · have hnone : k.taken = none := taken_start r k (mem_singleton.mp hc ▸ hk)
        simp [ChunkOk, hnone]
    · obtain ⟨call, hcall, hmem⟩ := h.begun e he
      have hlt := (List.getElem?_eq_some_iff.mp hcall).1
      exact ⟨call, by rw [getElem?_append_left hlt, hcall], hmem⟩
  | dispatch c =>
    simp only [ForState.step] at hs
    split at hs
    next call hc =>
      obtain ⟨-, rfl⟩ := ite_some_iff.mp hs
      exact h.setCall hc (dispatch_functor call)
        (chunkOk_dispatch (h.chunks call (mem_of_getElem? hc)))
    · cases hs
  | enter c j i =>
    simp only [ForState.step] at hs
    split at hs
    next call k hk =>
      obtain ⟨-, rfl⟩ := ite_some_iff.mp hs
      refine h.take hk rfl (subset_cons_self _ _) (refl _)
        (fun e he ↦ mem_cons_of_mem _ (h.entered he)) h.flag ?_ fun e he ↦ .inl he
      cases hflag : s.flag i (typeOf call.functor) with
      | false => exact mem_cons_self
      | true =>
        -- The flag was set for a functor entered here, which is this one.
        obtain ⟨o, ho, hmem⟩ := h.flag i _ hflag
        have hsame : o = call.functor := hl c j i call k rfl hk (i, o) (h.entered hmem) rfl ho
        exact hsame ▸ hmem
    · cases hs
  | callInitialize c j =>
    simp only [ForState.step] at hs
    split at hs
    next call k hk =>
      split at hs
      next i htaken =>
        cases hs
        have hentered : (i, call.functor) ∈ s.entered := by
          simpa [ChunkOk, htaken] using h.chunkOk hk
        refine h.take hk rfl (refl _) (subset_cons_self _ _)
          (cons_subset.mpr ⟨hentered, h.entered⟩) (fun i' f hset ↦ ?_)
          mem_cons_self fun e he ↦ .inl he
        by_cases hnew : i' = i ∧ f = typeOf call.functor
        · exact ⟨call.functor, hnew.2.symm, hnew.1 ▸ mem_cons_self⟩
        · obtain ⟨o, ho, hmem⟩ := h.flag i' f (flag_of_update hset hnew)
          exact ⟨o, ho, mem_cons_of_mem _ hmem⟩
      · cases hs
    · cases hs
  | begin c j =>
    simp only [ForState.step] at hs
    split at hs
    next call k hk =>
      split at hs
      next i htaken =>
        cases hs
        have hinit : (i, call.functor) ∈ s.initialized := by
          simpa [ChunkOk, htaken] using h.chunkOk hk
        refine h.take hk rfl (refl _) (refl _) h.entered h.flag hinit
          fun e he ↦ ?_
        rcases mem_cons.mp he with rfl | he
        · exact .inr ⟨rfl, hinit⟩
        · exact .inl he
      · cases hs
    · cases hs
  | finish c j =>
    simp only [ForState.step] at hs
    split at hs
    next call k hk =>
      split at hs
      next i htaken =>
        cases hs
        have hinit : (i, call.functor) ∈ s.initialized := by
          simpa [ChunkOk, htaken] using h.chunkOk hk
        exact h.take hk rfl (refl _) (refl _) h.entered h.flag hinit
          fun e he ↦ .inl he
      · cases hs
    · cases hs
  | reduce c =>
    simp only [ForState.step] at hs
    split at hs
    next call hc =>
      obtain ⟨-, rfl⟩ := ite_some_iff.mp hs
      exact h.setCall hc rfl (h.chunks call (mem_of_getElem? hc))
    · cases hs

end ForState
end Hisab.Parallel
