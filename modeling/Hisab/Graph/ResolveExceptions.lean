import Hisab.Graph.ResolveTrace

/-!
# Resolvers that throw

`resolve` pushes its key and a frame before it calls the resolver and takes them back after
the call, with no guard between (`keyed_graph_builder.h:106–115`). Here a resolver may also
catch what a `ctx.resolve` call throws and go on. Whatever it does, the frames below its own
stay, and a call that ends by throwing leaves its key in progress and a frame on the stack.
-/

namespace Hisab.Graph

open Option

/-- What a resolver that may catch does next: return, throw, or resolve a key with some
resolver `R` and go on with the reply or with the exception. -/
inductive Attempt (Key α R U P : Type)
  | finish (status : GraphStatus) (name : String) (work : NodeWork α) (user : U)
  | throw (e : Thrown) (user : U)
  | resolve (key : Key) (resolver : R) (user : U) (out : Nat) (k : Except Thrown Reply → U → P)

/-- A family of resolvers that may catch. -/
structure CatchingResolvers (Key α R U P : Type) where
  enter : R → Key → U → P
  next : P → KeyedGraphBuilder Key α → Attempt Key α R U P

/-- The end of a call: what it returned or threw, and the builder it left. -/
structure Outcome (V Key α U : Type) where
  value : Except Thrown V
  user : U
  ctx : KeyedGraphBuilder Key α

namespace KeyedGraphBuilder

variable {Key α R U P : Type} [DecidableEq Key]

/-- The end of `resolve` once the resolver's body has ended (`keyed_graph_builder.h:111–131`). -/
def concludeAttempt (key : Key) (out : Nat)
    (body : Outcome (GraphStatus × String × NodeWork α) Key α U) : Outcome Reply Key α U :=
  match body.value with
  | .error e => ⟨.error e, body.user, body.ctx⟩
  | .ok (status, name, work) =>
    let dependencies := body.ctx.frameStack.headD []
    let ctx := body.ctx.endResolve key
    if status.ok then
      let (id, ctx) := ctx.addResolved key name work dependencies
      ⟨.ok ⟨.success, id⟩, body.user, ctx.recordInCallerFrame id⟩
    else ⟨.ok ⟨status, out⟩, body.user, ctx⟩

/-- `resolve` (`keyed_graph_builder.h:90–132`), with the run of the resolver's body given. -/
def attemptVia (code : CatchingResolvers Key α R U P) (run : KeyedGraphBuilder Key α → P →
      Option (Outcome (GraphStatus × String × NodeWork α) Key α U))
    (b : KeyedGraphBuilder Key α) (key : Key) (resolver : R) (user : U) (out : Nat) :
    Option (Outcome Reply Key α U) :=
  match b.resolved key with
  | some id => some ⟨.ok ⟨.success, id⟩, user, b.recordInCallerFrame id⟩
  | none =>
    if key ∈ b.inProgress then some ⟨.ok ⟨resolutionCycle, out⟩, user, b⟩
    else (run (b.beginResolve key) (code.enter resolver key user)).map (concludeAttempt key out)

/-- The body of a resolver from a program point on; `none` when `fuel` did not suffice. -/
def runCatching (code : CatchingResolvers Key α R U P) : Nat → KeyedGraphBuilder Key α → P →
    Option (Outcome (GraphStatus × String × NodeWork α) Key α U)
  | 0, _, _ => none
  | fuel + 1, b, p =>
    match code.next p b with
    | .finish status name work user => some ⟨.ok (status, name, work), user, b⟩
    | .throw e user => some ⟨.error e, user, b⟩
    | .resolve key resolver user out k =>
      match attemptVia code (runCatching code fuel) b key resolver user out with
      | none => none
      | some call => runCatching code fuel call.ctx (k call.value call.user)

/-- `resolve` with a resolver that may catch. -/
def attempt (code : CatchingResolvers Key α R U P) (fuel : Nat) (b : KeyedGraphBuilder Key α)
    (key : Key) (resolver : R) (user : U) (out : Nat) : Option (Outcome Reply Key α U) :=
  attemptVia code (runCatching code fuel) b key resolver user out

end KeyedGraphBuilder

/-! ## Resolvers that catch nothing -/

/-- The point of a resolver that does not catch: its own, or in the middle of throwing. -/
inductive PassingPoint (U P : Type)
  | own (p : P)
  | rethrow (e : Thrown) (user : U)

/-- What a resolver does next, letting every exception through. -/
def Request.passing {Key α R U P : Type} :
    Request Key α R U P → Attempt Key α R U (PassingPoint U P)
  | .finish status name work user => .finish status name work user
  | .throw e user => .throw e user
  | .resolve key resolver user out k =>
    .resolve key resolver user out fun
      | .ok reply, user => .own (k reply user)
      | .error e, user => .rethrow e user

/-- The same resolvers, among those that may catch. -/
def Resolvers.passing {Key α R U P : Type} (code : Resolvers Key α R U P) :
    CatchingResolvers Key α R U (PassingPoint U P) where
  enter resolver key user := .own (code.enter resolver key user)
  next
    | .own p, b => (code.next p b).passing
    | .rethrow e user, _ => .throw e user

namespace KeyedGraphBuilder

variable {Key α R U P : Type} [DecidableEq Key]
  {run : KeyedGraphBuilder Key α → P → Option (ResolverRun Key α U)} {b : KeyedGraphBuilder Key α}
  {key : Key} {resolver : R} {code : CatchingResolvers Key α R U P} {call : Outcome Reply Key α U}

/-- The end of a body, without its record. -/
def bodyOutcome (r : ResolverRun Key α U) : Outcome (GraphStatus × String × NodeWork α) Key α U :=
  ⟨r.value, r.user, r.ctx⟩

/-- The end of a call, without its record. -/
def callOutcome (r : ResolveRun Key α U) : Outcome Reply Key α U := ⟨r.value, r.user, r.ctx⟩

private theorem concludeAttempt_bodyOutcome (key : Key) (inProgress : List Key) (out : Nat)
    (body : ResolverRun Key α U) :
    concludeAttempt key out (bodyOutcome body) =
      callOutcome (concludeResolve key inProgress out body) := by
  cases hv : body.value with
  | error e => simp only [concludeAttempt, concludeResolve, bodyOutcome, callOutcome, hv]
  | ok v =>
    obtain ⟨status, name, work⟩ := v
    by_cases hok : status.ok = true
    · rw [concludeResolve_of_ok hv hok]
      simp only [concludeAttempt, bodyOutcome, callOutcome, hv, if_pos hok]
    · simp only [concludeAttempt, concludeResolve, bodyOutcome, callOutcome, hv, if_neg hok]

private theorem attemptVia_passing (code : Resolvers Key α R U P)
    {run' : KeyedGraphBuilder Key α → PassingPoint U P → Option (Outcome (GraphStatus × String × NodeWork α) Key α U)}
    (hrun : ∀ b p, run' b (.own p) = (run b p).map bodyOutcome) (b : KeyedGraphBuilder Key α)
    (key : Key) (resolver : R) (user : U) (out : Nat) :
    attemptVia code.passing run' b key resolver user out =
      (resolveVia code run b key resolver user out).map callOutcome := by
  unfold attemptVia resolveVia
  cases b.resolved key with
  | some id => rfl
  | none =>
    by_cases hin : key ∈ b.inProgress
    · simp only [if_pos hin]
      rfl
    · simp only [if_neg hin]
      rw [show code.passing.enter resolver key user = .own (code.enter resolver key user) from rfl,
        hrun, map_map, map_map]
      congr 1
      funext body
      exact concludeAttempt_bodyOutcome key b.inProgress out body

/-- Only a resolver's body throws. -/
private theorem resolveVia_error {code : Resolvers Key α R U P} {user : U} {out : Nat}
    {call : ResolveRun Key α U} (h : resolveVia code run b key resolver user out = some call)
    {e : Thrown} (he : call.value = .error e) : ∃ b p body, run b p = some body := by
  unfold resolveVia at h
  cases hres : b.resolved key with
  | some id =>
    simp only [hres, some.injEq] at h
    subst h
    cases he
  | none =>
    simp only [hres] at h
    by_cases hin : key ∈ b.inProgress
    · rw [if_pos hin, some.injEq] at h
      subst h
      cases he
    · rw [if_neg hin] at h
      obtain ⟨body, hbody, _⟩ := map_eq_some_iff.mp h
      exact ⟨_, _, body, hbody⟩

private theorem runCatching_passing (code : Resolvers Key α R U P) (fuel : Nat)
    (b : KeyedGraphBuilder Key α) (p : P) :
    runCatching code.passing fuel b (.own p) = (runResolver code fuel b p).map bodyOutcome := by
  induction fuel generalizing b p with
  | zero => rfl
  | succ fuel ih =>
    rw [runCatching, runResolver,
      show code.passing.next (.own p) b = (code.next p b).passing from rfl]
    cases code.next p b with
    | finish status name work user | throw e user => rfl
    | resolve key resolver user out k =>
      simp only [Request.passing, attemptVia_passing code ih]
      cases hcall : resolveVia code (runResolver code fuel) b key resolver user out with
      | none => rfl
      | some call =>
        cases hv : call.value with
        | error e =>
          -- The body that threw had some fuel, which the rethrow uses.
          obtain ⟨_, _, _, hbody⟩ := resolveVia_error hcall hv
          cases fuel with
          | zero => cases hbody
          | succ fuel => simp only [map_some, callOutcome, hv]; rfl
        | ok reply =>
          simp only [map_some, callOutcome, hv, ih, map_map]
          rfl

/-- Resolvers that catch nothing resolve as they do among those that may. -/
theorem attempt_passing (code : Resolvers Key α R U P) (fuel : Nat) (b : KeyedGraphBuilder Key α)
    (key : Key) (resolver : R) (user : U) (out : Nat) :
    attempt code.passing fuel b key resolver user out =
      (resolve code fuel b key resolver user out).map callOutcome :=
  attemptVia_passing code (runCatching_passing code fuel) b key resolver user out

/-! ## What is left behind -/

/-- The stack still has the frames `frames`, below at least one other. -/
def Above (frames stack : List (List Nat)) : Prop := ∃ top ≠ [], stack = top ++ frames

/-- A key that stays in progress and unresolved. -/
def Stuck (b : KeyedGraphBuilder Key α) (key : Key) : Prop :=
  key ∈ b.inProgress ∧ b.resolved key = none

theorem above_recordAll {frames stack : List (List Nat)} (h : Above frames stack)
    (ids : List Nat) : Above frames (recordAll stack ids) := by
  obtain ⟨top, hne, rfl⟩ := h
  cases top with
  | nil => exact absurd rfl hne
  | cons first rest => exact ⟨(first ++ ids) :: rest, by simp, by simp [recordAll]⟩

/-- A call that ends keeps the frames below those of its caller. -/
theorem above_tail {frames stack caller : List (List Nat)} (h : Above caller stack)
    (hcaller : Above frames caller) : Above frames stack.tail := by
  obtain ⟨top, hne, rfl⟩ := h
  obtain ⟨top', hne', rfl⟩ := hcaller
  cases top with
  | nil => exact absurd rfl hne
  | cons first rest =>
    refine ⟨rest ++ top', ?_, by simp⟩
    intro hnil
    exact hne' (List.append_eq_nil_iff.mp hnil).2

/-- What a stretch of a run that starts from `b` keeps. -/
structure KeepsBelow (b ctx : KeyedGraphBuilder Key α) : Prop where
  frames : ∀ frames, Above frames b.frameStack → Above frames ctx.frameStack
  stuck : ∀ key, Stuck b key → Stuck ctx key

/-- The end of `resolve` after a body that kept what was below it. -/
private theorem concludeAttempt_keepsBelow (hnot : key ∉ b.inProgress)
    {body : Outcome (GraphStatus × String × NodeWork α) Key α U}
    (h : KeepsBelow (b.beginResolve key) body.ctx) (out : Nat) :
    KeepsBelow b (concludeAttempt key out body).ctx := by
  have hbody : Above b.frameStack body.ctx.frameStack :=
    h.frames _ ⟨[[]], by simp, by simp [beginResolve]⟩
  have hstuck : ∀ k, Stuck b k → k ≠ key ∧ Stuck body.ctx k := by
    intro k hk
    refine ⟨fun heq ↦ hnot (heq ▸ hk.1), ?_⟩
    exact h.stuck k ⟨List.mem_cons_of_mem _ hk.1, hk.2⟩
  have hend : KeepsBelow b (body.ctx.endResolve key) := by
    constructor
    · intro frames hframes
      exact above_tail hbody hframes
    · intro k hk
      obtain ⟨hne, hin, hnone⟩ := hstuck k hk
      exact ⟨(List.mem_erase_of_ne hne).mpr hin, hnone⟩
  cases hv : body.value with
  | error e =>
    simp only [concludeAttempt, hv]
    constructor
    · intro frames hframes
      obtain ⟨top, hne, htop⟩ := hbody
      obtain ⟨top', hne', htop'⟩ := hframes
      refine ⟨top ++ top', by simp [hne], ?_⟩
      rw [htop, htop', List.append_assoc]
    · intro k hk
      exact (hstuck k hk).2
  | ok v =>
    obtain ⟨status, name, work⟩ := v
    by_cases hok : status.ok = true
    · simp only [concludeAttempt, hv, if_pos hok]
      constructor
      · intro frames hframes
        rw [recordInCallerFrame_frameStack]
        exact above_recordAll (hend.frames frames hframes) _
      · intro k hk
        obtain ⟨hin, hnone⟩ := hend.stuck k hk
        constructor
        · rw [recordInCallerFrame_inProgress]
          exact hin
        · rw [recordInCallerFrame_resolved]
          simp only [addResolved]
          split
          · exact hnone
          · rw [Function.update_of_ne (hstuck k hk).1]
            exact hnone
    · simp only [concludeAttempt, hv, if_neg hok]
      exact hend

private theorem attemptVia_keepsBelow
    {run : KeyedGraphBuilder Key α → P → Option (Outcome (GraphStatus × String × NodeWork α) Key α U)}
    (hrun : ∀ b p body, run b p = some body → KeepsBelow b body.ctx) {user : U} {out : Nat}
    (h : attemptVia code run b key resolver user out = some call) : KeepsBelow b call.ctx := by
  unfold attemptVia at h
  cases hres : b.resolved key with
  | some id =>
    simp only [hres, some.injEq] at h
    subst h
    constructor
    · intro frames hframes
      rw [recordInCallerFrame_frameStack]
      exact above_recordAll hframes _
    · intro k hk
      simpa [Stuck] using hk
  | none =>
    simp only [hres] at h
    by_cases hin : key ∈ b.inProgress
    · rw [if_pos hin, some.injEq] at h
      subst h
      exact ⟨fun _ h ↦ h, fun _ h ↦ h⟩
    · rw [if_neg hin] at h
      obtain ⟨body, hbody, rfl⟩ := map_eq_some_iff.mp h
      exact concludeAttempt_keepsBelow hin (hrun _ _ _ hbody) out

/-- A body keeps the frames below its own, and the keys that were in progress. -/
private theorem runCatching_keepsBelow (code : CatchingResolvers Key α R U P) (fuel : Nat)
    (b : KeyedGraphBuilder Key α) (p : P)
    (body : Outcome (GraphStatus × String × NodeWork α) Key α U)
    (h : runCatching code fuel b p = some body) : KeepsBelow b body.ctx := by
  induction fuel generalizing b p body with
  | zero => cases h
  | succ fuel ih =>
    rw [runCatching] at h
    cases hnext : code.next p b with
    | finish status name work user | throw e user =>
      simp only [hnext, some.injEq] at h
      subst h
      exact ⟨fun _ h ↦ h, fun _ h ↦ h⟩
    | resolve key resolver user out k =>
      simp only [hnext] at h
      cases hcall : attemptVia code (runCatching code fuel) b key resolver user out with
      | none => simp [hcall] at h
      | some call =>
        simp only [hcall] at h
        have hc := attemptVia_keepsBelow ih hcall
        have hr := ih _ _ _ h
        exact ⟨fun frames hf ↦ hr.frames frames (hc.frames frames hf),
          fun k hk ↦ hr.stuck k (hc.stuck k hk)⟩

/-- A call that throws leaves its frame on the stack and its key in progress. -/
theorem attempt_throws {fuel : Nat} {user : U} {out : Nat}
    (h : attempt code fuel b key resolver user out = some call) {e : Thrown}
    (he : call.value = .error e) :
    key ∉ b.inProgress ∧ Stuck call.ctx key ∧ Above b.frameStack call.ctx.frameStack := by
  rw [attempt, attemptVia] at h
  cases hres : b.resolved key with
  | some id =>
    simp only [hres, some.injEq] at h
    subst h
    cases he
  | none =>
    simp only [hres] at h
    by_cases hin : key ∈ b.inProgress
    · rw [if_pos hin, some.injEq] at h
      subst h
      cases he
    · rw [if_neg hin] at h
      obtain ⟨body, hbody, hcall⟩ := map_eq_some_iff.mp h
      have hkeeps := runCatching_keepsBelow code fuel _ _ _ hbody
      have hctx : call.ctx = body.ctx := by
        subst hcall
        cases hv : body.value with
        | error e => simp only [concludeAttempt, hv]
        | ok v =>
          obtain ⟨status, name, work⟩ := v
          by_cases hok : status.ok = true
          · simp [concludeAttempt, hv, hok] at he
          · simp [concludeAttempt, hv, hok] at he
      rw [hctx]
      refine ⟨hin, hkeeps.stuck key ⟨List.mem_cons_self, hres⟩, ?_⟩
      exact hkeeps.frames _ ⟨[[]], by simp, by simp [beginResolve]⟩

/-- The bookkeeping of `b'` is that of `b`: the same keys in progress, as a set, and the same
frames. -/
def SameBookkeeping (b b' : KeyedGraphBuilder Key α) : Prop :=
  (∀ k, k ∈ b'.inProgress ↔ k ∈ b.inProgress) ∧ b'.frameStack = b.frameStack

/-- What a failed call on `key` left: other bookkeeping than before, and a key that every later
`resolve` reports as a cycle without calling its resolver. -/
def LeavesBehind (b b' : KeyedGraphBuilder Key α) (key : Key) : Prop :=
  ¬SameBookkeeping b b' ∧ b'.frameStack.length > b.frameStack.length ∧
    ∀ {R U P : Type} (code : CatchingResolvers Key α R U P) (fuel : Nat) (resolver : R)
      (user : U) (out : Nat),
      attempt code fuel b' key resolver user out = some ⟨.ok ⟨resolutionCycle, out⟩, user, b'⟩

private theorem leavesBehind_of_throw {fuel : Nat} {user : U} {out : Nat}
    (h : attempt code fuel b key resolver user out = some call) {e : Thrown}
    (he : call.value = .error e) : LeavesBehind b call.ctx key := by
  obtain ⟨hnot, hstuck, top, hne, htop⟩ := attempt_throws h he
  refine ⟨fun hsame ↦ hnot ((hsame.1 key).mp hstuck.1), ?_, ?_⟩
  · rw [htop, List.length_append]
    have := List.length_pos_iff.mpr hne
    omega
  · intro R U P code fuel resolver user out
    simp only [attempt, attemptVia, hstuck.2, if_pos hstuck.1]

/-- No call of `resolve` or of `resolve_with_discovery` that throws is neutral, whichever
resolver threw at whatever depth and whatever the resolvers in between caught. -/
theorem throw_never_neutral (code : CatchingResolvers Key α R U P)
    (provider : ResolverProvider Key α U) (fuel : Nat) (b : KeyedGraphBuilder Key α) (key : Key)
    (resolver : R) (user : U) (out : Nat) :
    (∀ call e, attempt code fuel b key resolver user out = some call →
      call.value = .error e → LeavesBehind b call.ctx key) ∧
    (∀ run e, resolveWithDiscovery provider fuel b key user out = some run →
      run.value = .error e → LeavesBehind b run.ctx key) := by
  constructor
  · intro call e h he
    exact leavesBehind_of_throw h he
  · intro run e h he
    have hattempt := attempt_passing (synthesized provider) fuel b key () user out
    rw [show resolve (synthesized provider) fuel b key () user out = some run from h] at hattempt
    exact leavesBehind_of_throw hattempt he

/-- Key `0` throws the first time its resolver is called, and every other key needs key `0`. The
shared state counts the calls. -/
def failingOnce : CatchingResolvers Nat Nat Unit Nat (Nat × Nat) where
  enter _ key user := (key, user)
  next
    | (0, 0), _ => .throw (.exception "not yet") 1
    | (0, n + 1), _ => .finish .success "node" (fun _ ↦ .ok none) (n + 2)
    | (_, n), _ => .resolve 0 () n 0 fun
      | .ok _, n => (0, n)
      | .error _, _ => (0, 0)

/-- After a call on key `1` that threw, two keys are in progress and two frames are left. -/
theorem failingOnce_not_neutral :
    ¬∀ (code : CatchingResolvers Nat Nat Unit Nat (Nat × Nat)) (fuel : Nat)
      (b : KeyedGraphBuilder Nat Nat) (key user out : Nat) (call : Outcome Reply Nat Nat Nat)
      (e : Thrown), attempt code fuel b key () user out = some call → call.value = .error e →
        SameBookkeeping b call.ctx := by
  intro hall
  let call := (attempt failingOnce 3 {} 1 () 0 0).get rfl
  have hsame := hall failingOnce 3 {} 1 0 0 call (.exception "not yet") rfl rfl
  have hstack : call.ctx.frameStack = [[], []] := rfl
  rw [hsame.2] at hstack
  cases hstack

/-- The same call: the keys `0` and `1` are reported as cycles from then on. -/
theorem failingOnce_leavesBehind : ∃ call, attempt failingOnce 3 {} 1 () 0 0 = some call ∧
    LeavesBehind {} call.ctx 1 ∧ call.ctx.inProgress = [0, 1] :=
  ⟨(attempt failingOnce 3 {} 1 () 0 0).get rfl, rfl, (throw_never_neutral failingOnce
      (⟨fun _ _ n ↦ (.ok [], n), fun _ n ↦ (.ok (.success, "node", fun _ ↦ .ok none), n)⟩)
      3 {} 1 () 0 0).1 _ (.exception "not yet") rfl rfl, rfl⟩

end KeyedGraphBuilder
end Hisab.Graph
