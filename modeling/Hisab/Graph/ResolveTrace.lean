import Hisab.Graph.ResolveSpec

/-!
# Resolution memoizes and traces

The invariant of resolution, read over whole histories: any sequence of top-level `resolve`
calls with resolvers that return a status. Calls at any depth are covered by `Occurs`, the
states in which a top-level caller or a resolver can call `resolve`.
-/

namespace Hisab.Graph

open Base

namespace KeyedGraphBuilder

variable {Key α R U P : Type} [DecidableEq Key]

omit [DecidableEq Key] in
theorem Consistent.empty : Consistent ({} : KeyedGraphBuilder Key α) := by constructor <;> simp

omit [DecidableEq Key] in
/-- The checks of `build` never fail: the edges lead to smaller ids. -/
theorem Consistent.build {b : KeyedGraphBuilder Key α} (hb : Consistent b)
    (out : Option (DependencyGraph α)) : b.build out = (.success, some b.builder.graph) := by
  have hrange : InRange b.builder.nodes.length b.builder.edges := fun e he ↦ by
    have := hb.edges e he
    omega
  refine GraphBuilder.build_of_acyclic hrange ?_ out
  rintro ⟨v, hv⟩
  have hlt : ∀ u, Relation.TransGen (DependsOn b.builder.edges) v u → u < v := by
    intro u h
    induction h with
    | single h => exact (hb.edges _ h).1
    | tail _ h ih => exact (hb.edges _ h).1.trans ih
  exact Nat.lt_irrefl _ (hlt v hv)

end KeyedGraphBuilder

/-- No resolver throws. -/
def Resolvers.Returning {Key α R U P : Type} (code : Resolvers Key α R U P) : Prop :=
  ∀ p b e user, code.next p b ≠ .throw e user

/-- The run with the shared state seen through `f`. -/
def ResolverRun.mapUser {Key α U U' : Type} (f : U → U') (r : ResolverRun Key α U) :
    ResolverRun Key α U' :=
  ⟨r.value, f r.user, r.ctx, r.calls, r.invocations⟩

/-- The run with the shared state seen through `f`. -/
def ResolveRun.mapUser {Key α U U' : Type} (f : U → U') (r : ResolveRun Key α U) :
    ResolveRun Key α U' :=
  ⟨r.value, f r.user, r.ctx, r.invocations⟩

/-- A top-level call of `resolve` and its end. -/
structure Resolution (Key α R U : Type) where
  key : Key
  resolver : R
  user : U
  out : Nat
  run : ResolveRun Key α U

namespace KeyedGraphBuilder

variable {Key α R U P : Type} [DecidableEq Key] {code : Resolvers Key α R U P}
  {b : KeyedGraphBuilder Key α}

/-- Top-level calls of `resolve` on a fresh builder, one after another. Between two calls the
caller may change what the resolvers share. -/
def resolutions (code : Resolvers Key α R U P) :
    TransitionSystem (KeyedGraphBuilder Key α) (Resolution Key α R U) where
  init b := b = {}
  step b l b' := ∃ fuel, resolve code fuel b l.key l.resolver l.user l.out = some l.run ∧
    b' = l.run.ctx

/-- The states in which `resolve` can be called, by a top-level caller or by a resolver. -/
inductive Occurs (code : Resolvers Key α R U P) : KeyedGraphBuilder Key α → Prop
  | start : Occurs code {}
  | returned {b : KeyedGraphBuilder Key α} {fuel out : Nat} {key : Key} {resolver : R}
      {user : U} {run : ResolveRun Key α U} : Occurs code b →
      resolve code fuel b key resolver user out = some run → Occurs code run.ctx
  | entered {b : KeyedGraphBuilder Key α} {key : Key} : Occurs code b →
      b.resolved key = none → key ∉ b.inProgress → Occurs code (b.beginResolve key)

theorem Occurs.consistent (h : Occurs code b) : Consistent b := by
  induction h with
  | start => exact .empty
  | returned _ hr ih => exact (resolve_spec ih hr).consistent
  | entered _ hkey _ ih => exact ih.beginResolve hkey

private theorem resolveVia_returns
    {run : KeyedGraphBuilder Key α → P → Option (ResolverRun Key α U)}
    (hrun : ∀ b p body, run b p = some body → ∃ v, body.value = .ok v) {key : Key} {resolver : R}
    {user : U} {out : Nat} {res : ResolveRun Key α U}
    (h : resolveVia code run b key resolver user out = some res) :
    ∃ reply, res.value = .ok reply := by
  unfold resolveVia at h
  split at h
  · cases h
    exact ⟨_, rfl⟩
  · split at h
    · cases h
      exact ⟨_, rfl⟩
    · obtain ⟨body, hbody, rfl⟩ := Option.map_eq_some_iff.mp h
      obtain ⟨⟨status, name, work⟩, hv⟩ := hrun _ _ _ hbody
      by_cases hok : status.ok = true
      · exact ⟨_, by rw [concludeResolve_of_ok hv hok]⟩
      · exact ⟨⟨status, out⟩, by simp [concludeResolve, hv, hok]⟩

/-- A body whose resolvers do not throw ends with a status. -/
private theorem runResolver_returns (hcode : code.Returning) (fuel : Nat)
    (b : KeyedGraphBuilder Key α) (p : P) (body : ResolverRun Key α U)
    (h : runResolver code fuel b p = some body) : ∃ v, body.value = .ok v := by
  induction fuel generalizing b p body with
  | zero => cases h
  | succ fuel ih =>
    rw [runResolver] at h
    cases hnext : code.next p b with
    | finish status name work user =>
      simp only [hnext] at h
      cases h
      exact ⟨_, rfl⟩
    | throw e user => exact absurd hnext (hcode p b e user)
    | resolve key resolver user out k =>
      simp only [hnext] at h
      split at h
      · cases h
      next call hcall =>
        obtain ⟨reply, hreply⟩ := resolveVia_returns ih hcall
        simp only [hreply] at h
        obtain ⟨rest, hrest, rfl⟩ := Option.map_eq_some_iff.mp h
        exact ih _ _ rest hrest

theorem resolve_returns (hcode : code.Returning) {fuel : Nat} {key : Key} {resolver : R} {user : U}
    {out : Nat} {res : ResolveRun Key α U}
    (h : resolve code fuel b key resolver user out = some res) : ∃ reply, res.value = .ok reply :=
  resolveVia_returns (runResolver_returns hcode fuel) h

/-- The resolvers called in a history, in the order they ended. -/
def invocationsOf (ls : List (Resolution Key α R U)) : List (Invocation Key) :=
  ls.flatMap (·.run.invocations)

/-- A history keeps the invariant and is recorded. -/
theorem resolutions_spec {b b' : KeyedGraphBuilder Key α} {ls : List (Resolution Key α R U)}
    (h : (resolutions code).Run b ls b') (hb : Consistent b) :
    Consistent b' ∧ Grows b b' ∧ Recorded b b' (invocationsOf ls) := by
  induction h with
  | nil b => exact ⟨hb, .refl b, .nil b⟩
  | @cons b t r l ls hstep _ ih =>
    obtain ⟨fuel, hres, rfl⟩ := hstep
    have hr := resolve_spec hb hres
    obtain ⟨hc, hg, hrec⟩ := ih hr.consistent
    exact ⟨hc, hr.grows.trans hg, hr.recorded.append hrec hr.consistent hg⟩

/-- A key that a top-level call resolved keeps its node. -/
theorem resolutions_success {b b' : KeyedGraphBuilder Key α} {ls : List (Resolution Key α R U)}
    (h : (resolutions code).Run b ls b') (hb : Consistent b) :
    ∀ l ∈ ls, ∀ reply, l.run.value = .ok reply →
      reply.status.ok = true → b'.resolved l.key = some reply.out := by
  induction h with
  | nil b => simp
  | @cons b t r l ls hstep hrun ih =>
    obtain ⟨fuel, hres, rfl⟩ := hstep
    have hr := resolve_spec hb hres
    intro l' hl' reply hreply hok
    rcases List.mem_cons.mp hl' with rfl | hl'
    · exact (resolutions_spec hrun hr.consistent).2.1.resolved _ _ (hr.success _ hreply hok)
    · exact ih hr.consistent l' hl' reply hreply hok

/-- Resolution memoizes and traces faithfully, and its graph always builds. The first part is
about every call at any depth, the second about every history of top-level calls: each key
has at most one node, and the dependencies of a node are the ids of the successful calls its
resolver made itself. -/
theorem resolve_memoizes_and_traces (code : Resolvers Key α R U P) (hcode : code.Returning) :
    (∀ b, Occurs code b → (∀ out, (b.build out).1 = .success) ∧
      ∀ (fuel : Nat) (key : Key) (resolver : R) (user : U) (out : Nat),
        (∀ id, b.resolved key = some id → resolve code fuel b key resolver user out =
          some ⟨.ok ⟨.success, id⟩, user, b.recordInCallerFrame id, []⟩) ∧
        (key ∈ b.inProgress → resolve code fuel b key resolver user out =
          some ⟨.ok ⟨resolutionCycle, out⟩, user, b, []⟩) ∧
        ∀ run, resolve code fuel b key resolver user out = some run →
          ∃ reply, run.value = .ok reply ∧ run.ctx.inProgress = b.inProgress ∧
            (reply.status.ok = true → run.ctx.resolved key = some reply.out ∧
              run.ctx.frameStack = recordAll b.frameStack [reply.out]) ∧
            (reply.status.ok = false → run.ctx.resolved key = none ∧
              key ∉ madeKeys run.invocations ∧ run.ctx.frameStack = b.frameStack ∧
              reply.out = out)) ∧
    ∀ b ls, (resolutions code).Run {} ls b → (madeKeys (invocationsOf ls)).Nodup ∧
      b.builder.nodes.length = (madeKeys (invocationsOf ls)).length ∧
      (∀ key id, b.resolved key = some id ↔
        ∃ inv ∈ invocationsOf ls, inv.key = key ∧ inv.node = some id) ∧
      (∀ key key' id, b.resolved key = some id → b.resolved key' = some id → key = key') ∧
      (∀ inv ∈ invocationsOf ls, Faithful b inv) ∧
      ∀ l ∈ ls, ∀ reply, l.run.value = .ok reply → reply.status.ok = true →
        b.resolved l.key = some reply.out := by
  refine ⟨fun b hb ↦ ⟨fun out ↦ by rw [hb.consistent.build],
    fun fuel key resolver user out ↦ ⟨fun id hid ↦ ?_, fun hin ↦ ?_, fun run hrun ↦ ?_⟩⟩,
    fun b ls h ↦ ?_⟩
  · simp only [resolve, resolveVia, hid]
  · simp only [resolve, resolveVia, hb.consistent.pending key hin, if_pos hin]
  · obtain ⟨reply, hreply⟩ := resolve_returns hcode hrun
    have hr := resolve_spec hb.consistent hrun
    refine ⟨reply, hreply, hr.inProgress reply hreply, fun hok ↦ ?_, fun hno ↦ ?_⟩
    · exact ⟨hr.success reply hreply hok, by rw [hr.frames reply hreply, if_pos hok]⟩
    · obtain ⟨hnone, hout⟩ := hr.failure reply hreply hno
      refine ⟨hnone, fun hmade ↦ ?_, ?_, hout⟩
      · obtain ⟨inv, hin, hkey, id, hid⟩ := mem_madeKeys.mp hmade
        have := (hr.recorded.resolved_iff key id).mpr (.inr ⟨inv, hin, hkey, hid⟩)
        rw [hnone] at this
        cases this
      · rw [hr.frames reply hreply, if_neg (by simp [hno]), recordAll_nil]
  · obtain ⟨hc, _, hrec⟩ := resolutions_spec h .empty
    refine ⟨hrec.nodup, by simpa using hrec.count, fun key id ↦ ?_, hc.injective,
      hrec.faithful, resolutions_success h .empty⟩
    simpa using hrec.resolved_iff key id

/-- Key `0` needs nothing, and every other key needs key `0`. -/
def sharing : Resolvers Nat Nat Unit Unit Bool where
  enter _ key _ := key == 0
  next
    | true, _ => .finish .success "node" (fun _ ↦ .ok none) ()
    | false, _ => .resolve 0 () () 0 fun _ _ ↦ true

/-- Keys `1` and `2` share the node of key `0`. -/
theorem sharing_traced : sharing.Returning ∧ ∃ b ls, (resolutions sharing).Run {} ls b ∧
    madeKeys (invocationsOf ls) = [0, 1, 2] ∧ b.builder.nodes.length = 3 ∧
    (∀ out, (b.build out).1 = .success) := by
  have hcode : sharing.Returning := by
    intro p b e user
    cases p <;> simp [sharing]
  obtain ⟨hcalls, hruns⟩ := resolve_memoizes_and_traces sharing hcode
  let first := (resolve sharing 2 {} 1 () () 0).get rfl
  let second := (resolve sharing 2 first.ctx 2 () () 0).get rfl
  have hfirst : resolve sharing 2 {} 1 () () 0 = some first := rfl
  have hsecond : resolve sharing 2 first.ctx 2 () () 0 = some second := rfl
  have hrun : (resolutions sharing).Run {}
      [⟨1, (), (), 0, first⟩, ⟨2, (), (), 0, second⟩] second.ctx :=
    .cons ⟨2, hfirst, rfl⟩ (.cons ⟨2, hsecond, rfl⟩ (.nil _))
  have hoccurs : Occurs sharing second.ctx := (Occurs.start.returned hfirst).returned hsecond
  exact ⟨hcode, second.ctx, _, hrun, rfl, (hruns _ _ hrun).2.1, (hcalls _ hoccurs).1⟩

/-! ## Resolvers that behave alike -/

section Simulation

variable {U' P' : Type}

/-- The same request, up to the shared state and the point to go on from. -/
def RequestMatches (f : U → U') (g : P → P') : Request Key α R U P → Request Key α R U' P' → Prop
  | .finish status name work user, .finish status' name' work' user' =>
    status' = status ∧ name' = name ∧ work' = work ∧ user' = f user
  | .throw e user, .throw e' user' => e' = e ∧ user' = f user
  | .resolve key resolver user out k, .resolve key' resolver' user' out' k' =>
    key' = key ∧ resolver' = resolver ∧ user' = f user ∧ out' = out ∧
      ∀ reply v, k' reply (f v) = g (k reply v)
  | _, _ => False

/-- `code'` does what `code` does, on states that `f` makes coarser. -/
structure Simulates (code : Resolvers Key α R U P) (code' : Resolvers Key α R U' P')
    (f : U → U') (g : P → P') : Prop where
  enter : ∀ resolver key user, code'.enter resolver key (f user) = g (code.enter resolver key user)
  next : ∀ p b, RequestMatches f g (code.next p b) (code'.next (g p) b)

variable {code : Resolvers Key α R U P} {code' : Resolvers Key α R U' P'} {f : U → U'} {g : P → P'}

private theorem concludeResolve_mapUser (key : Key) (inProgress : List Key) (out : Nat)
    (body : ResolverRun Key α U) :
    concludeResolve key inProgress out (body.mapUser f) =
      (concludeResolve key inProgress out body).mapUser f := by
  simp only [concludeResolve, ResolverRun.mapUser]
  split
  · rfl
  · split <;> rfl

private theorem resolveVia_simulates (h : Simulates code code' f g)
    {run : KeyedGraphBuilder Key α → P → Option (ResolverRun Key α U)}
    {run' : KeyedGraphBuilder Key α → P' → Option (ResolverRun Key α U')}
    (hrun : ∀ b p, run' b (g p) = (run b p).map (·.mapUser f))
    (b : KeyedGraphBuilder Key α) (key : Key) (resolver : R) (user : U) (out : Nat) :
    resolveVia code' run' b key resolver (f user) out =
      (resolveVia code run b key resolver user out).map (·.mapUser f) := by
  unfold resolveVia
  cases b.resolved key with
  | some id => rfl
  | none =>
    by_cases hin : key ∈ b.inProgress
    · simp only [if_pos hin]
      rfl
    · simp only [if_neg hin, h.enter, hrun, Option.map_map]
      congr 1
      funext body
      exact concludeResolve_mapUser key b.inProgress out body

private theorem runResolver_simulates (h : Simulates code code' f g) (fuel : Nat)
    (b : KeyedGraphBuilder Key α) (p : P) :
    runResolver code' fuel b (g p) = (runResolver code fuel b p).map (·.mapUser f) := by
  induction fuel generalizing b p with
  | zero => rfl
  | succ fuel ih =>
    have hnext := h.next p b
    rw [runResolver, runResolver]
    cases hp : code.next p b <;> cases hp' : code'.next (g p) b <;>
      simp only [hp, hp', RequestMatches] at hnext
    case finish.finish =>
      obtain ⟨rfl, rfl, rfl, rfl⟩ := hnext
      rfl
    case throw.throw =>
      obtain ⟨rfl, rfl⟩ := hnext
      rfl
    case resolve.resolve key resolver user out k key' resolver' user' out' k' =>
      obtain ⟨rfl, rfl, rfl, rfl, hk⟩ := hnext
      simp only [resolveVia_simulates h ih]
      cases resolveVia code (runResolver code fuel) b key' resolver' user out' with
      | none => rfl
      | some call =>
        cases hv : call.value with
        | error e => simp [ResolveRun.mapUser, ResolverRun.mapUser, hv]
        | ok reply =>
          simp only [Option.map_some, ResolveRun.mapUser, hv, hk, ih, Option.map_map]
          rfl

/-- Resolvers that behave alike resolve alike. -/
theorem resolve_simulates (h : Simulates code code' f g) (fuel : Nat)
    (b : KeyedGraphBuilder Key α) (key : Key) (resolver : R) (user : U) (out : Nat) :
    resolve code' fuel b key resolver (f user) out =
      (resolve code fuel b key resolver user out).map (·.mapUser f) :=
  resolveVia_simulates h (runResolver_simulates h fuel) b key resolver user out

end Simulation

end KeyedGraphBuilder
end Hisab.Graph

/-!
## Resolution by discovery

`resolve_with_discovery` (`keyed_graph_builder.h:212–249`) is one `resolve` call with a
resolver made of the provider's two functions: passes of `discover_fn`, each followed by the
resolution of the keys it returned that are not resolved yet, until a pass leaves none, and
then `build_fn`. Here that resolver is given by its program points.

An edge is recorded only by a `resolve` call, so a key that is already resolved when a pass
returns it gets no edge from that pass.
-/

namespace Hisab.Graph

/-- `resolver_provider` (`keyed_graph_builder.h:195`): the discover and build functions of
every key, with the state they share. Either may throw. -/
structure ResolverProvider (Key α U : Type) where
  discover : Key → KeyedGraphBuilder Key α → U → Except Thrown (List Key) × U
  build : Key → U → Except Thrown (GraphStatus × String × NodeWork α) × U

/-- Where the resolver made from a provider stands: before a pass, in the loop over the keys
a pass left, or with the failure of one of them. -/
inductive DiscoveryPoint (Key U : Type)
  | pass (key : Key) (user : U)
  | resolving (key : Key) (newlyNeeded : List Key) (user : U)
  | failed (status : GraphStatus) (user : U)

namespace KeyedGraphBuilder

variable {Key α U : Type} [DecidableEq Key]

/-- The state after the reply to a dependency (`keyed_graph_builder.h:239–242`). -/
def afterDependency (key : Key) (rest : List Key) (reply : Reply) (user : U) :
    DiscoveryPoint Key U :=
  if reply.status.ok then .resolving key rest user else .failed reply.status user

/-- The rest of a pass: the next key it left, or `build_fn` when it left none
(`keyed_graph_builder.h:234–246`). -/
def afterPass (provider : ResolverProvider Key α U) (key : Key) (newlyNeeded : List Key)
    (user : U) : Request Key α Unit U (DiscoveryPoint Key U) :=
  match newlyNeeded with
  | dependency :: rest => .resolve dependency () user 0 (afterDependency key rest)
  | [] =>
    match provider.build key user with
    | (.ok (status, name, work), user) => .finish status name work user
    | (.error e, user) => .throw e user

/-- One pass (`keyed_graph_builder.h:226–233`). -/
def discoveryPass (provider : ResolverProvider Key α U) (b : KeyedGraphBuilder Key α)
    (key : Key) (user : U) : Request Key α Unit U (DiscoveryPoint Key U) :=
  match provider.discover key b user with
  | (.ok candidates, user) =>
    afterPass provider key (candidates.filter fun c ↦ !b.isResolved c) user
  | (.error e, user) => .throw e user

/-- The resolver `resolve_with_discovery` makes from a provider. -/
def synthesized (provider : ResolverProvider Key α U) :
    Resolvers Key α Unit U (DiscoveryPoint Key U) where
  enter _ key user := .pass key user
  next
    | .pass key user, b => discoveryPass provider b key user
    -- A pass that left a key is followed by another pass.
    | .resolving key [] user, b => discoveryPass provider b key user
    | .resolving key (dependency :: rest) user, _ =>
      afterPass provider key (dependency :: rest) user
    | .failed status user, _ => .finish status "" (fun _ ↦ .ok none) user

/-- `resolve_with_discovery`. -/
def resolveWithDiscovery (provider : ResolverProvider Key α U) (fuel : Nat)
    (b : KeyedGraphBuilder Key α) (key : Key) (user : U) (out : Nat) :
    Option (ResolveRun Key α U) :=
  resolve (synthesized provider) fuel b key () user out

end KeyedGraphBuilder
end Hisab.Graph
