import Hisab.Graph.ResolveTrace

/-!
# The edges discovery records

Which of the keys that `discover_fn` returned become dependencies. The provider is made to
write down every pass; the own calls of the synthesized resolver are then exactly the keys
its passes left unresolved, in order, and these are the dependencies of the node.
-/

namespace Hisab.Graph

open Base List ResolverProvider

/-- A pass of the discover function of `key`: the keys it returned, each with whether it was
resolved when the pass was made. -/
structure Pass (Key : Type) where
  key : Key
  returned : List (Key × Bool)
deriving Repr, DecidableEq

namespace ResolverProvider

variable {Key α U : Type}

/-- The same provider, which also writes down its passes. -/
def recording (provider : ResolverProvider Key α U) :
    ResolverProvider Key α (U × List (Pass Key)) where
  discover key b user :=
    match provider.discover key b user.1 with
    | (.ok candidates, u) =>
      (.ok candidates, u, user.2 ++ [⟨key, candidates.map fun c ↦ (c, b.isResolved c)⟩])
    | (.error e, u) => (.error e, u, user.2)
  build key user := ((provider.build key user.1).1, (provider.build key user.1).2, user.2)

theorem recording_discover_ok {provider : ResolverProvider Key α U} {key : Key}
    {b : KeyedGraphBuilder Key α} {user : U × List (Pass Key)} {candidates : List Key} {u : U}
    (h : provider.discover key b user.1 = (.ok candidates, u)) :
    provider.recording.discover key b user =
      (.ok candidates, u, user.2 ++ [⟨key, candidates.map fun c ↦ (c, b.isResolved c)⟩]) := by
  simp [recording, h]

theorem recording_discover_error {provider : ResolverProvider Key α U} {key : Key}
    {b : KeyedGraphBuilder Key α} {user : U × List (Pass Key)} {e : Thrown} {u : U}
    (h : provider.discover key b user.1 = (.error e, u)) :
    provider.recording.discover key b user = (.error e, u, user.2) := by
  simp [recording, h]

end ResolverProvider

/-- The keys a pass left to be resolved. -/
def Pass.unresolved {Key : Type} (q : Pass Key) : List Key :=
  (q.returned.filter fun c ↦ !c.2).map (·.1)

namespace DiscoveryPoint

variable {Key U : Type}

/-- The keys still to be resolved in the current pass. -/
def pending : DiscoveryPoint Key U → List Key
  | .pass _ _ => []
  | .resolving _ newlyNeeded _ => newlyNeeded
  | .failed _ _ => []

/-- The state the callbacks share. -/
def user : DiscoveryPoint Key U → U
  | .pass _ user => user
  | .resolving _ _ user => user
  | .failed _ user => user

/-- The point with the shared state seen through `f`. -/
def map {U' : Type} (f : U → U') : DiscoveryPoint Key U → DiscoveryPoint Key U'
  | .pass key user => .pass key (f user)
  | .resolving key newlyNeeded user => .resolving key newlyNeeded (f user)
  | .failed status user => .failed status (f user)

/-- The point belongs to the resolver of `key`, before `build_fn` and without a failure. -/
def Of (key : Key) : DiscoveryPoint Key U → Prop
  | .pass key' _ => key' = key
  | .resolving key' _ _ => key' = key
  | .failed _ _ => False

end DiscoveryPoint

namespace KeyedGraphBuilder

variable {Key α U : Type} [DecidableEq Key]

/-- The passes of `key`. -/
def passesOf (key : Key) (passes : List (Pass Key)) : List (Pass Key) := passes.filter (·.key = key)

/-- What the body of the resolver of `key` has done from a point on, when it ends: its own
calls are the keys pending and those its passes left, and the keys its passes found resolved
are resolved. -/
structure Discovers (b : KeyedGraphBuilder Key α) (key : Key) (pending : List Key)
    (start : List (Pass Key)) (body : ResolverRun Key α (U × List (Pass Key))) : Prop where
  passes : ∃ new, body.user.2 = start ++ new ∧ (∀ q ∈ new, q.key = key ∨ q.key ∉ b.inProgress) ∧
    ∀ status name work, body.value = .ok (status, name, work) → status.ok = true →
      body.calls.map (·.key) = pending ++ (passesOf key new).flatMap (·.unresolved) ∧
      (∀ c ∈ body.calls, c.reply.status.ok = true) ∧
      ∀ q ∈ passesOf key new, ∀ c, (c, true) ∈ q.returned → ∃ id, body.ctx.resolved c = some id

omit [DecidableEq Key] in
/-- What a pass left is what its filter kept. -/
theorem unresolved_recorded (b : KeyedGraphBuilder Key α) (key : Key) (candidates : List Key) :
    Pass.unresolved ⟨key, candidates.map fun c ↦ (c, b.isResolved c)⟩ =
      candidates.filter fun c ↦ !b.isResolved c := by
  simp [Pass.unresolved, filter_map, Function.comp_def]

theorem passesOf_append (key : Key) (l l' : List (Pass Key)) :
    passesOf key (l ++ l') = passesOf key l ++ passesOf key l' := by
  simp [passesOf]

section Body

variable {provider : ResolverProvider Key α U} {fuel : Nat}
  (ih : ∀ (b : KeyedGraphBuilder Key α) key point body, Consistent b → key ∈ b.inProgress → point.Of key → runResolver (synthesized provider.recording) fuel b point = some body → Discovers b key point.pending point.user.2 body)
  {b : KeyedGraphBuilder Key α} {user : U × List (Pass Key)}
  {body : ResolverRun Key α (U × List (Pass Key))}
  {point : DiscoveryPoint Key (U × List (Pass Key))}

include ih in
/-- A `resolve_with_discovery` call makes no pass of a key in progress. -/
private theorem resolve_passes (hb : Consistent b) {key : Key} {out : Nat}
    {call : ResolveRun Key α (U × List (Pass Key))}
    (h : resolveVia (synthesized provider.recording) (runResolver (synthesized provider.recording) fuel) b key () user out = some call)
    : ∃ new, call.user.2 = user.2 ++ new ∧ ∀ q ∈ new, q.key ∉ b.inProgress := by
  unfold resolveVia at h
  split at h
  · cases h
    exact ⟨[], by simp, by simp⟩
  next hnone =>
    split at h
    · cases h
      exact ⟨[], by simp, by simp⟩
    next hnot =>
      obtain ⟨body, hbody, rfl⟩ := Option.map_eq_some_iff.mp h
      have hin : key ∈ (b.beginResolve key).inProgress := mem_cons_self
      obtain ⟨new, hnew, hkeys, -⟩ :=
        (ih _ key (.pass key user) body (hb.beginResolve hnone) hin rfl hbody).passes
      refine ⟨new, by rw [concludeResolve_user]; exact hnew, fun q hq ↦ ?_⟩
      rcases hkeys q hq with rfl | hq'
      · exact hnot
      · exact fun hq'' ↦ hq' (mem_cons_of_mem _ hq'')

omit ih in
/-- A failure of a dependency ends the body with it. -/
private theorem runResolver_failed {status : GraphStatus}
    (h : runResolver (synthesized provider.recording) fuel b (.failed status user) = some body) :
    body.user = user ∧ ∃ name work, body.value = .ok (status, name, work) := by
  cases fuel with
  | zero => cases h
  | succ fuel =>
    cases h
    exact ⟨rfl, _, _, rfl⟩

include ih in
/-- The body from the keys a pass left on. -/
private theorem discovers_afterPass (hb : Consistent b) {key : Key} (hin : key ∈ b.inProgress)
    {pending : List Key}
    (hnext : (synthesized provider.recording).next point b = afterPass provider.recording key pending user)
    (h : runResolver (synthesized provider.recording) (fuel + 1) b point = some body) :
    Discovers b key pending user.2 body := by
  rw [runResolver, hnext] at h
  cases pending with
  | nil =>
    simp only [afterPass, recording] at h
    cases hbuild : (provider.build key user.1).1 with
    | ok v =>
      simp only [hbuild] at h
      cases h
      exact ⟨[], by simp, by simp, by simp [passesOf]⟩
    | error e =>
      simp only [hbuild] at h
      cases h
      exact ⟨[], by simp, by simp, by simp⟩
  | cons d rest =>
    simp only [afterPass] at h
    split at h
    · cases h
    next call hcall =>
      obtain ⟨new₁, hnew₁, hkeys₁⟩ := resolve_passes ih hb hcall
      have hspec := resolveVia_spec (runResolver_spec _ fuel) hb hcall
      cases hv : call.value with
      | error e =>
        simp only [hv] at h
        cases h
        exact ⟨new₁, hnew₁, fun q hq ↦ .inr (hkeys₁ q hq), by simp⟩
      | ok reply =>
        simp only [hv] at h
        obtain ⟨r, hr, rfl⟩ := Option.map_eq_some_iff.mp h
        have hprog := hspec.inProgress _ hv
        by_cases hok : reply.status.ok = true
        · rw [afterDependency, if_pos hok] at hr
          obtain ⟨new₂, hnew₂, hkeys₂, hend⟩ :=
            (ih _ key (.resolving key rest call.user) r hspec.consistent (hprog ▸ hin) rfl
              hr).passes
          have hown : passesOf key (new₁ ++ new₂) = passesOf key new₂ := by
            rw [passesOf_append, passesOf, filter_eq_nil_iff.mpr, nil_append]
            intro q hq heq
            exact hkeys₁ q hq (of_decide_eq_true heq ▸ hin)
          refine ⟨new₁ ++ new₂, ?_, fun q hq ↦ ?_, fun status name work hval hst ↦ ?_⟩
          · rw [← append_assoc, ← hnew₁]
            exact hnew₂
          · rcases mem_append.mp hq with hq | hq
            · exact .inr (hkeys₁ q hq)
            · exact hprog ▸ hkeys₂ q hq
          · obtain ⟨hcalls, hoks, hres⟩ := hend status name work hval hst
            rw [hown]
            refine ⟨?_, fun c hc ↦ ?_, hres⟩
            · rw [map_cons, hcalls]
              rfl
            rcases mem_cons.mp hc with rfl | hc
            · exact hok
            · exact hoks c hc
        · rw [afterDependency, if_neg hok] at hr
          obtain ⟨huser, name, work, hval⟩ := runResolver_failed hr
          refine ⟨new₁, by rw [← hnew₁]; exact congrArg Prod.snd huser,
            fun q hq ↦ .inr (hkeys₁ q hq), fun status name' work' hval' hst ↦ ?_⟩
          rw [show r.value = .ok (reply.status, name, work) from hval] at hval'
          cases hval'
          exact absurd hst hok

include ih in
/-- The body from a pass on. -/
private theorem discovers_pass (hb : Consistent b) {key : Key} (hin : key ∈ b.inProgress)
    (hnext : (synthesized provider.recording).next point b = discoveryPass provider.recording b key user)
    (h : runResolver (synthesized provider.recording) (fuel + 1) b point = some body) :
    Discovers b key [] user.2 body := by
  cases hd : provider.discover key b user.1 with
  | mk result u =>
    cases result with
    | error e =>
      have hthrow : (synthesized provider.recording).next point b = .throw e (u, user.2) := by
        rw [hnext, discoveryPass, recording_discover_error hd]
      rw [runResolver, hthrow] at h
      cases h
      exact ⟨[], by simp, by simp, by simp⟩
    | ok candidates =>
      let q : Pass Key := ⟨key, candidates.map fun c ↦ (c, b.isResolved c)⟩
      have hafter : (synthesized provider.recording).next point b =
          afterPass provider.recording key (candidates.filter fun c ↦ !b.isResolved c)
            (u, user.2 ++ [q]) := by
        rw [hnext, discoveryPass, recording_discover_ok hd]
      obtain ⟨new, hnew, hkeys, hend⟩ := (discovers_afterPass ih hb hin hafter h).passes
      have hgrows : Grows b body.ctx := (runResolver_spec _ _ _ _ _ hb h).grows
      refine ⟨q :: new, by simpa using hnew, fun q' hq' ↦ ?_, fun status name work hv hok ↦ ?_⟩
      · rcases mem_cons.mp hq' with rfl | hq'
        · exact .inl rfl
        · exact hkeys q' hq'
      · obtain ⟨hcalls, hoks, hres⟩ := hend status name work hv hok
        have hown : passesOf key (q :: new) = q :: passesOf key new := by simp [passesOf, q]
        rw [hown]
        refine ⟨?_, hoks, fun q' hq' c hc ↦ ?_⟩
        · rw [hcalls, flatMap_cons, unresolved_recorded, nil_append]
        · rcases mem_cons.mp hq' with rfl | hq'
          · simp only [q, mem_map, Prod.mk.injEq] at hc
            obtain ⟨c', _, rfl, hres'⟩ := hc
            obtain ⟨id, hid⟩ := Option.isSome_iff_exists.mp hres'
            exact ⟨id, hgrows.resolved _ _ hid⟩
          · exact hres q' hq' c hc

end Body

/-- The body of the resolver of `key`, from any of its points on. -/
theorem discovers (provider : ResolverProvider Key α U) (fuel : Nat)
    (b : KeyedGraphBuilder Key α) (key : Key)
    (point : DiscoveryPoint Key (U × List (Pass Key)))
    (body : ResolverRun Key α (U × List (Pass Key))) (hb : Consistent b)
    (hin : key ∈ b.inProgress) (hof : point.Of key)
    (h : runResolver (synthesized provider.recording) fuel b point = some body) :
    Discovers b key point.pending point.user.2 body := by
  induction fuel generalizing b key point body with
  | zero => cases h
  | succ fuel ih =>
    cases point with
    | pass key' user =>
      obtain rfl : key' = key := hof
      exact discovers_pass ih hb hin rfl h
    | resolving key' newlyNeeded user =>
      obtain rfl : key' = key := hof
      cases newlyNeeded with
      | nil => exact discovers_pass ih hb hin rfl h
      | cons d rest => exact discovers_afterPass ih hb hin rfl h
    | failed status user => exact hof.elim

/-- A `resolve` call that called its resolver and succeeded: the end of the body, and the
dependencies of the new node. -/
theorem resolve_success {R P : Type} {code : Resolvers Key α R U P} {fuel : Nat}
    {b : KeyedGraphBuilder Key α} (hb : Consistent b) {key : Key} {resolver : R} {user : U}
    {out id : Nat} {run : ResolveRun Key α U}
    (h : resolve code fuel b key resolver user out = some run)
    (hok : run.value = .ok ⟨.success, id⟩) (hnone : b.resolved key = none) :
    ∃ body, runResolver code fuel (b.beginResolve key) (code.enter resolver key user) =
        some body ∧ run.user = body.user ∧ key ∉ b.inProgress ∧
      (∃ status name work, body.value = .ok (status, name, work) ∧ status.ok = true) ∧
      (∀ c ∈ body.calls, c.reply.status.ok = true → run.ctx.resolved c.key = some c.reply.out) ∧
      dependenciesOf run.ctx.builder.edges id = okIds body.calls ∧
      ∀ key' id', body.ctx.resolved key' = some id' → run.ctx.resolved key' = some id' := by
  have hspec := resolve_spec hb h
  simp only [resolve, resolveVia, hnone] at h
  split at h
  · cases h
    cases hok
  next hnot =>
    obtain ⟨body, hbody, rfl⟩ := Option.map_eq_some_iff.mp h
    refine ⟨body, hbody, concludeResolve_user .., hnot, ?_⟩
    cases hv : body.value with
    | error e => simp [concludeResolve, hv] at hok
    | ok v =>
      obtain ⟨status, name, work⟩ := v
      by_cases hst : status.ok = true
      · have hinv : ⟨key, b.inProgress, body.calls, .ok status, some id⟩ ∈
            (concludeResolve key b.inProgress out body).invocations := by
          rw [concludeResolve_of_ok hv hst] at hok ⊢
          simp only [Except.ok.injEq, Reply.mk.injEq, true_and] at hok
          simp [← hok]
        have hfaithful := hspec.recorded.faithful _ hinv
        exact ⟨⟨status, name, work, rfl, hst⟩, fun c hc ↦ (hfaithful.answered c hc).success,
          (hfaithful.node id rfl).2,
          fun _ _ ↦ concludeResolve_resolved key b.inProgress out body⟩
      · simp only [concludeResolve, hv, if_neg hst, Except.ok.injEq, Reply.mk.injEq] at hok
        rw [hok.1] at hst
        exact absurd rfl hst

/-! ## Recording changes nothing -/

omit [DecidableEq Key] in
private theorem afterPass_matches (provider : ResolverProvider Key α U) (key : Key)
    (pending : List Key) (user : U × List (Pass Key)) :
    RequestMatches Prod.fst (DiscoveryPoint.map Prod.fst)
      (afterPass provider.recording key pending user)
      (afterPass provider key pending user.1) := by
  cases pending with
  | nil =>
    rcases hbuild : provider.build key user.1 with ⟨_ | ⟨status, name, work⟩, u⟩ <;>
      simp [afterPass, recording, hbuild, RequestMatches]
  | cons d rest =>
    refine ⟨rfl, rfl, rfl, rfl, fun reply v ↦ ?_⟩
    unfold afterDependency
    split <;> rfl

omit [DecidableEq Key] in
private theorem discoveryPass_matches (provider : ResolverProvider Key α U)
    (b : KeyedGraphBuilder Key α) (key : Key) (user : U × List (Pass Key)) :
    RequestMatches Prod.fst (DiscoveryPoint.map Prod.fst)
      (discoveryPass provider.recording b key user)
      (discoveryPass provider b key user.1) := by
  unfold discoveryPass
  cases hd : provider.discover key b user.1 with
  | mk result u =>
    cases result with
    | error e =>
      rw [recording_discover_error hd]
      exact ⟨rfl, rfl⟩
    | ok candidates =>
      rw [recording_discover_ok hd]
      exact afterPass_matches provider key _ _

omit [DecidableEq Key] in
/-- The recording provider does what the provider does. -/
theorem recording_simulates (provider : ResolverProvider Key α U) :
    Simulates (synthesized provider.recording) (synthesized provider) Prod.fst
      (DiscoveryPoint.map Prod.fst) where
  enter _ _ _ := rfl
  next p b := by
    cases p with
    | pass key user => exact discoveryPass_matches provider b key user
    | resolving key newlyNeeded user =>
      cases newlyNeeded with
      | nil => exact discoveryPass_matches provider b key user
      | cons d rest => exact afterPass_matches provider key (d :: rest) user
    | failed status user => exact ⟨rfl, rfl, rfl, rfl⟩

/-! ## Which keys become dependencies -/

/-- Every key that a pass of `key` returned has a node among the dependencies of the node of
`key`, in the graph built from `b`. -/
def EdgesComplete (b : KeyedGraphBuilder Key α) (key : Key) (passes : List (Pass Key)) : Prop :=
  ∀ g, (b.build none).2 = some g → ∃ id n, b.resolved key = some id ∧ g.nodeAt id = some n ∧
    ∀ q ∈ passesOf key passes, ∀ c ∈ q.returned, ∃ d, b.resolved c.1 = some d ∧ d ∈ n.dependencies

omit [DecidableEq Key] in
/-- A key is among the dependencies exactly when some pass found it unresolved. -/
private theorem mem_okIds_iff {b : KeyedGraphBuilder Key α} (hb : Consistent b)
    {calls : List (ResolveCall Key)} (hoks : ∀ c ∈ calls, c.reply.status.ok = true)
    (hres : ∀ c ∈ calls, b.resolved c.key = some c.reply.out) {key : Key} :
    (∃ d, b.resolved key = some d ∧ d ∈ okIds calls) ↔ key ∈ calls.map (·.key) := by
  simp only [okIds, mem_map, mem_filter]
  constructor
  · rintro ⟨d, hd, c, ⟨hc, _⟩, rfl⟩
    exact ⟨c, hc, hb.injective _ _ _ (hres c hc) hd⟩
  · rintro ⟨c, hc, rfl⟩
    exact ⟨_, hres c hc, c, ⟨hc, hoks c hc⟩, rfl⟩

/-- The edges that a successful discovery records are complete exactly when every key its own
passes returned was, in some pass that returned it, not resolved yet. The graph may be built
from any later builder. -/
theorem discovery_edges_complete_iff {R U' P : Type} {code : Resolvers Key α R U' P}
    {b : KeyedGraphBuilder Key α} (hb : Occurs code b) (provider : ResolverProvider Key α U)
    {fuel : Nat} {key : Key} {user : U} {out id : Nat}
    {run : ResolveRun Key α (U × List (Pass Key))}
    (h : resolveWithDiscovery provider.recording fuel b key (user, []) out = some run)
    (hok : run.value = .ok ⟨.success, id⟩) :
    resolveWithDiscovery provider fuel b key user out = some (run.mapUser Prod.fst) ∧
    ∀ b', Consistent b' → Grows run.ctx b' → (EdgesComplete b' key run.user.2 ↔
      ∀ q ∈ passesOf key run.user.2, ∀ c, (c, true) ∈ q.returned →
        ∃ q' ∈ passesOf key run.user.2, (c, false) ∈ q'.returned) := by
  have hspec := resolve_spec hb.consistent h
  refine ⟨?_, fun b' hb' hgrows ↦ ?_⟩
  · have hsim := resolve_simulates (recording_simulates provider) fuel b key () (user, []) out
    rw [show resolve (synthesized provider.recording) fuel b key () (user, []) out = some run
      from h] at hsim
    exact hsim
  have hid := hgrows.resolved _ _ (hspec.success _ hok rfl)
  have hnode : b'.builder.graph.nodeAt id = b'.builder.nodes[id]?.map fun n ↦
      { name := n.name
        work := n.work
        successors := successorsOf b'.builder.edges id
        dependencies := dependenciesOf b'.builder.edges id } :=
    GraphBuilder.nodeAt_graph b'.builder id
  rw [getElem?_eq_getElem (hb'.id_lt _ _ hid), Option.map_some] at hnode
  have hdeps : dependenciesOf b'.builder.edges id = dependenciesOf run.ctx.builder.edges id :=
    hgrows.dependenciesOf (hspec.consistent.id_lt _ _ (hspec.success _ hok rfl))
  -- The statement about the graph is one about the edges of the new node.
  have hgraph : EdgesComplete b' key run.user.2 ↔ ∀ q ∈ passesOf key run.user.2,
      ∀ c ∈ q.returned, ∃ d, b'.resolved c.1 = some d ∧
        d ∈ dependenciesOf run.ctx.builder.edges id := by
    rw [← hdeps]
    constructor
    · intro hall
      obtain ⟨id', n, hid', hn, hrest⟩ := hall b'.builder.graph (by rw [hb'.build])
      obtain rfl : id = id' := Option.some.inj (hid.symm.trans hid')
      rw [hnode, Option.some.injEq] at hn
      rw [← hn] at hrest
      exact hrest
    · intro hall g hg
      rw [hb'.build, Option.some.injEq] at hg
      rw [← hg]
      exact ⟨id, _, hid, hnode, hall⟩
  rw [hgraph]
  cases hres : b.resolved key with
  | some id' =>
    -- The key was resolved before: there was no pass.
    have hsome : run = ⟨.ok ⟨.success, id'⟩, (user, []), b.recordInCallerFrame id', []⟩ := by
      simpa [resolveWithDiscovery, resolve, resolveVia, hres] using h.symm
    simp [hsome, passesOf]
  | none =>
    obtain ⟨body, hbody, huser, hnot, ⟨status, name, work, hv, hst⟩, hanswered, hedges,
      hkeep⟩ := resolve_success hb.consistent h hok hres
    obtain ⟨new, hnew, -, hend⟩ := (discovers provider fuel _ key (.pass key (user, [])) body
      (hb.consistent.beginResolve hres) mem_cons_self rfl hbody).passes
    obtain ⟨hcalls, hoks, htrue⟩ := hend status name work hv hst
    have hpasses : run.user.2 = new := by
      rw [huser, hnew]
      rfl
    rw [hpasses, hedges]
    have hiff : ∀ c, (∃ d, b'.resolved c = some d ∧ d ∈ okIds body.calls) ↔
        ∃ q ∈ passesOf key new, (c, false) ∈ q.returned := by
      intro c
      rw [mem_okIds_iff hb' hoks fun c hc ↦ hgrows.resolved _ _ (hanswered c hc (hoks c hc)),
        hcalls]
      simp [DiscoveryPoint.pending, Pass.unresolved]
    simp only [hiff]
    constructor
    · intro hall q hq c hc
      exact hall q hq (c, true) hc
    · intro hall q hq c hc
      obtain ⟨c, resolved⟩ := c
      cases resolved with
      | true => exact hall q hq c hc
      | false => exact ⟨q, hq, hc⟩

/-- Keys `1` and `2` need key `0`. -/
def diamond : ResolverProvider Nat Nat Unit where
  discover key _ _ := (.ok (if key = 0 then [] else [0]), ())
  build _ _ := (.ok (.success, "node", fun _ ↦ .ok none), ())

/-- Key `1` is resolved first, and the node of key `2` has no edge to that of key `0`. -/
theorem diamond_edge_missing :
    ¬∀ (provider : ResolverProvider Nat Nat Unit) (b : KeyedGraphBuilder Nat Nat) (fuel : Nat)
      (key out id : Nat) (run : ResolveRun Nat Nat (Unit × List (Pass Nat))),
      Occurs (synthesized provider) b →
      resolveWithDiscovery provider.recording fuel b key ((), []) out = some run →
      run.value = .ok ⟨.success, id⟩ → EdgesComplete run.ctx key run.user.2 := by
  intro hall
  let first := (resolveWithDiscovery diamond 4 {} 1 () 0).get rfl
  have hfirst : resolve (synthesized diamond) 4 {} 1 () () 0 = some first := rfl
  have hb : Occurs (synthesized diamond) first.ctx := Occurs.start.returned hfirst
  let second := (resolveWithDiscovery diamond.recording 4 first.ctx 2 ((), []) 0).get rfl
  have hsecond : resolve (synthesized diamond.recording) 4 first.ctx 2 () ((), []) 0 =
      some second := rfl
  have hcons : Consistent second.ctx := (resolve_spec hb.consistent hsecond).consistent
  obtain ⟨id, n, hid, hn, hedges⟩ := hall diamond first.ctx 4 2 0 2 second hb hsecond rfl
    second.ctx.builder.graph (by rw [hcons.build])
  obtain ⟨d, -, hd⟩ := hedges ⟨2, [(0, true)]⟩ (by decide) (0, true) (by decide)
  have h2 : second.ctx.resolved 2 = some 2 := rfl
  obtain rfl : 2 = id := Option.some.inj (h2.symm.trans hid)
  rw [GraphBuilder.nodeAt_graph] at hn
  obtain ⟨_, _, rfl⟩ := Option.map_eq_some_iff.mp hn
  have hnone : dependenciesOf second.ctx.builder.edges 2 = [] := rfl
  rw [hnone] at hd
  cases hd

/-- Key `1` resolved on a fresh builder gets its edge. -/
theorem diamond_first_complete : ∃ run, resolveWithDiscovery diamond.recording 4 {} 1 ((), []) 0 =
    some run ∧ passesOf 1 run.user.2 = [⟨1, [(0, false)]⟩, ⟨1, [(0, true)]⟩] ∧
      EdgesComplete run.ctx 1 run.user.2 := by
  let run := (resolveWithDiscovery diamond.recording 4 {} 1 ((), []) 0).get rfl
  have hrun : resolve (synthesized diamond.recording) 4 {} 1 () ((), []) 0 = some run := rfl
  have hcons : Consistent run.ctx := (resolve_spec .empty hrun).consistent
  have hpasses : passesOf 1 run.user.2 = [⟨1, [(0, false)]⟩, ⟨1, [(0, true)]⟩] := by decide
  have hoccurs : Occurs (synthesized diamond) {} := .start
  have hok : run.value = .ok ⟨.success, 1⟩ := rfl
  refine ⟨run, rfl, hpasses, ?_⟩
  refine ((discovery_edges_complete_iff hoccurs diamond hrun hok).2 run.ctx hcons (.refl _)).mpr ?_
  rw [hpasses]
  simp

end KeyedGraphBuilder
end Hisab.Graph
