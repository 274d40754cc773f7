import Hisab.Graph.ResolveTrace

/-!
# Discovery ends

Over finitely many keys `resolve_with_discovery` ends from every builder. The depth of its
calls is bounded by the keys that are neither resolved nor in progress, the passes of one
resolver by the keys that are not resolved: a pass that is followed by another has resolved
the keys it left. A key asked for while its own resolver runs is answered as a cycle, and
the answer passes through every resolver above.
-/

namespace Hisab.Graph
namespace KeyedGraphBuilder

variable {Key α R U P : Type} [DecidableEq Key] {b : KeyedGraphBuilder Key α} {key : Key}
  {body : ResolverRun Key α U} {run : KeyedGraphBuilder Key α → P → Option (ResolverRun Key α U)}
  {resolver : R} {user : U} {out : Nat} {call : ResolveRun Key α U} {fuel : Nat}
  {provider : ResolverProvider Key α U} {point : DiscoveryPoint Key U}

/-! ## What a call keeps, from any builder -/

/-- What a stretch of a run that starts from `b` does to the keys. -/
structure KeepsKeys (b ctx : KeyedGraphBuilder Key α) (invocations : List (Invocation Key)) :
    Prop where
  resolved : ∀ k, ctx.resolved k = none → b.resolved k = none
  pending : ∀ k ∈ b.inProgress, b.resolved k = none → ctx.resolved k = none
  entered : ∀ inv ∈ invocations, ∀ k ∈ inv.key :: inv.inProgress,
    k ∈ b.inProgress ∨ b.resolved k = none

/-- What the body of a resolver does to the keys. -/
structure BodyKeeps (b : KeyedGraphBuilder Key α) (body : ResolverRun Key α U) : Prop where
  keys : KeepsKeys b body.ctx body.invocations
  inProgress : ∀ v, body.value = .ok v → body.ctx.inProgress = b.inProgress

/-- What a `resolve` call does to the keys. -/
structure CallKeeps (b : KeyedGraphBuilder Key α) (key : Key) (call : ResolveRun Key α U) :
    Prop where
  keys : KeepsKeys b call.ctx call.invocations
  inProgress : ∀ reply, call.value = .ok reply → call.ctx.inProgress = b.inProgress
  success : ∀ reply, call.value = .ok reply → reply.status.ok = true → call.ctx.resolved key ≠ none
  cycle : ∀ reply, call.value = .ok reply → key ∈ b.inProgress → b.resolved key = none →
    reply.status = resolutionCycle

omit [DecidableEq Key] in
theorem KeepsKeys.refl (b : KeyedGraphBuilder Key α) : KeepsKeys b b [] where
  resolved _ h := h
  pending _ _ h := h
  entered _ h := by cases h

omit [DecidableEq Key] in
/-- Two stretches of a run, the first of which gave the keys in progress back. -/
theorem KeepsKeys.append {a b c : KeyedGraphBuilder Key α} {l l' : List (Invocation Key)}
    (h : KeepsKeys a b l) (k : KeepsKeys b c l') (hprog : b.inProgress = a.inProgress) :
    KeepsKeys a c (l ++ l') where
  resolved key hkey := h.resolved key (k.resolved key hkey)
  pending key hin hkey := k.pending key (hprog ▸ hin) (h.pending key hin hkey)
  entered inv hinv key hkey := by
    cases List.mem_append.mp hinv with
    | inl hl => exact h.entered inv hl key hkey
    | inr hl =>
      cases k.entered inv hl key hkey with
      | inl hin => exact .inl (hprog ▸ hin)
      | inr hnone => exact .inr (h.resolved key hnone)

theorem addResolved_resolved (b : KeyedGraphBuilder Key α) (key : Key) (name : String)
    (work : NodeWork α) (dependencies : List Nat) (k : Key) :
    (b.addResolved key name work dependencies).2.resolved k = none ↔
      b.resolved k = none ∧ k ≠ key := by
  simp only [addResolved]
  by_cases hsome : (b.resolved key).isSome
  · rw [if_pos hsome]
    constructor
    · intro hk
      refine ⟨hk, fun heq ↦ ?_⟩
      subst heq
      rw [hk] at hsome
      cases hsome
    · exact fun h ↦ h.1
  · rw [if_neg hsome]
    by_cases heq : k = key
    · subst heq
      simp
    · simp [heq]

/-- The end of `resolve` after a body that kept the keys. -/
theorem concludeResolve_keeps (hnone : b.resolved key = none) (hnot : key ∉ b.inProgress)
    (h : BodyKeeps (b.beginResolve key) body) (out : Nat) :
    CallKeeps b key (concludeResolve key b.inProgress out body) := by
  have hentered : ∀ inv ∈ body.invocations, ∀ k ∈ inv.key :: inv.inProgress,
      k ∈ b.inProgress ∨ b.resolved k = none := by
    intro inv hinv k hk
    cases h.keys.entered inv hinv k hk with
    | inl hin =>
      cases List.mem_cons.mp hin with
      | inl heq => exact .inr (heq ▸ hnone)
      | inr hin => exact .inl hin
    | inr hk => exact .inr hk
  have hall : ∀ inv : Invocation Key, inv.key = key → inv.inProgress = b.inProgress →
      ∀ inv' ∈ body.invocations ++ [inv], ∀ k ∈ inv'.key :: inv'.inProgress,
      k ∈ b.inProgress ∨ b.resolved k = none := by
    intro inv hkey hprog inv' hinv' k hk
    cases List.mem_append.mp hinv' with
    | inl hl => exact hentered inv' hl k hk
    | inr hl =>
      rw [List.mem_singleton.mp hl, hkey, hprog] at hk
      cases List.mem_cons.mp hk with
      | inl heq => exact .inr (heq ▸ hnone)
      | inr hin => exact .inl hin
  have hpending : ∀ k ∈ b.inProgress, b.resolved k = none → body.ctx.resolved k = none :=
    fun k hin hk ↦ h.keys.pending k (List.mem_cons_of_mem _ hin) hk
  have hprog : ∀ v, body.value = .ok v → (body.ctx.endResolve key).inProgress = b.inProgress := by
    intro v hv
    simp [endResolve, h.inProgress v hv, beginResolve]
  cases hv : body.value with
  | error e =>
    simp only [concludeResolve, hv]
    exact
      { keys := ⟨h.keys.resolved, hpending, hall _ rfl rfl⟩
        inProgress := by simp
        success := by simp
        cycle := by simp }
  | ok v =>
    obtain ⟨status, name, work⟩ := v
    by_cases hok : status.ok = true
    · rw [concludeResolve_of_ok hv hok]
      have hres := addResolved_resolved (body.ctx.endResolve key) key name work
        (body.ctx.frameStack.headD [])
      exact
        { keys := by
            refine ⟨fun k hk ↦ ?_, fun k hin hk ↦ ?_, hall _ rfl rfl⟩
            · rw [recordInCallerFrame_resolved, hres] at hk
              exact h.keys.resolved k hk.1
            · rw [recordInCallerFrame_resolved, hres]
              exact ⟨hpending k hin hk, fun heq ↦ hnot (heq ▸ hin)⟩
          inProgress := by
            intro reply _
            rw [recordInCallerFrame_inProgress]
            exact hprog _ hv
          success := by
            intro reply _ _ hk
            rw [recordInCallerFrame_resolved, hres] at hk
            exact hk.2 rfl
          cycle := fun _ _ hin ↦ absurd hin hnot }
    · simp only [concludeResolve, hv, if_neg hok]
      exact
        { keys := ⟨h.keys.resolved, hpending, hall _ rfl rfl⟩
          inProgress := fun _ _ ↦ hprog _ hv
          success := by
            intro reply hreply hok'
            cases hreply
            exact absurd hok' hok
          cycle := fun _ _ hin ↦ absurd hin hnot }

theorem resolveVia_keeps {code : Resolvers Key α R U P}
    (hrun : ∀ b p body, run b p = some body → BodyKeeps b body)
    (h : resolveVia code run b key resolver user out = some call) : CallKeeps b key call := by
  unfold resolveVia at h
  cases hres : b.resolved key with
  | some id =>
    simp only [hres, Option.some.injEq] at h
    subst h
    exact
      { keys := ⟨by simp, by simp, by simp⟩
        inProgress := by simp
        success := by simp [hres]
        cycle := fun _ _ _ hnone ↦ by rw [hres] at hnone; cases hnone }
  | none =>
    simp only [hres] at h
    by_cases hin : key ∈ b.inProgress
    · rw [if_pos hin, Option.some.injEq] at h
      subst h
      exact
        { keys := .refl b
          inProgress := by simp
          success := by
            intro reply hreply hok
            cases hreply
            cases hok
          cycle := by
            intro reply hreply _ _
            cases hreply
            rfl }
    · rw [if_neg hin] at h
      obtain ⟨body, hbody, rfl⟩ := Option.map_eq_some_iff.mp h
      exact concludeResolve_keeps hres hin (hrun _ _ _ hbody) out

/-- The body of a resolver gives the keys in progress back when it returns. -/
theorem runResolver_keeps (code : Resolvers Key α R U P) (fuel : Nat)
    (b : KeyedGraphBuilder Key α) (p : P) (body : ResolverRun Key α U)
    (h : runResolver code fuel b p = some body) : BodyKeeps b body := by
  induction fuel generalizing b p body with
  | zero => cases h
  | succ fuel ih =>
    rw [runResolver] at h
    cases hnext : code.next p b with
    | finish status name work user | throw e user =>
      simp only [hnext, Option.some.injEq] at h
      subst h
      exact ⟨.refl b, fun _ _ ↦ rfl⟩
    | resolve key resolver user out k =>
      simp only [hnext] at h
      cases hcall : resolveVia code (runResolver code fuel) b key resolver user out with
      | none => simp [hcall] at h
      | some call =>
        have hc := resolveVia_keeps ih hcall
        cases hv : call.value with
        | error e =>
          simp only [hcall, hv, Option.some.injEq] at h
          subst h
          exact ⟨hc.keys, by simp⟩
        | ok reply =>
          simp only [hcall, hv] at h
          obtain ⟨rest, hrest, rfl⟩ := Option.map_eq_some_iff.mp h
          have hr := ih _ _ _ hrest
          have hprog := hc.inProgress reply hv
          exact ⟨hc.keys.append hr.keys hprog, fun v hv' ↦ (hr.inProgress v hv').trans hprog⟩

/-! ## More fuel gives the same run -/

theorem resolveVia_of_imp {code : Resolvers Key α R U P}
    {run run' : KeyedGraphBuilder Key α → P → Option (ResolverRun Key α U)}
    (hrun : ∀ b p body, run b p = some body → run' b p = some body)
    (h : resolveVia code run b key resolver user out = some call) :
    resolveVia code run' b key resolver user out = some call := by
  unfold resolveVia at h ⊢
  cases hres : b.resolved key with
  | some id =>
    simp only [hres] at h
    exact h
  | none =>
    simp only [hres] at h ⊢
    by_cases hin : key ∈ b.inProgress
    · rw [if_pos hin] at h ⊢
      exact h
    · rw [if_neg hin] at h ⊢
      obtain ⟨body, hbody, hcall⟩ := Option.map_eq_some_iff.mp h
      rw [hrun _ _ _ hbody, ← hcall]
      rfl

theorem runResolver_succ {code : Resolvers Key α R U P} {p : P}
    (h : runResolver code fuel b p = some body) : runResolver code (fuel + 1) b p = some body := by
  induction fuel generalizing b p body with
  | zero => cases h
  | succ fuel ih =>
    rw [runResolver] at h ⊢
    cases hnext : code.next p b with
    | finish status name work user | throw e user =>
      simp only [hnext] at h
      exact h
    | resolve key resolver user out k =>
      simp only [hnext] at h ⊢
      cases hcall : resolveVia code (runResolver code fuel) b key resolver user out with
      | none => simp [hcall] at h
      | some call =>
        rw [resolveVia_of_imp (fun _ _ _ ↦ ih) hcall]
        cases hv : call.value with
        | error e =>
          simp only [hcall, hv] at h ⊢
          exact h
        | ok reply =>
          simp only [hcall, hv] at h ⊢
          obtain ⟨rest, hrest, hbody⟩ := Option.map_eq_some_iff.mp h
          rw [ih hrest, ← hbody]
          rfl

theorem runResolver_of_le {code : Resolvers Key α R U P} {fuel fuel' : Nat} (hle : fuel ≤ fuel')
    {p : P} (h : runResolver code fuel b p = some body) :
    runResolver code fuel' b p = some body := by
  induction hle with
  | refl => exact h
  | step _ ih => exact runResolver_succ ih

theorem resolve_of_le {code : Resolvers Key α R U P} {fuel fuel' : Nat} (hle : fuel ≤ fuel')
    (h : resolve code fuel b key resolver user out = some call) :
    resolve code fuel' b key resolver user out = some call :=
  resolveVia_of_imp (fun _ _ _ ↦ runResolver_of_le hle) h

/-! ## Runs that end -/

/-- The body of a resolver ends from the point `p` on. -/
def BodyEnds (code : Resolvers Key α R U P) (b : KeyedGraphBuilder Key α) (p : P) : Prop :=
  ∃ fuel body, runResolver code fuel b p = some body

/-- A `resolve` call ends. -/
def CallEnds (code : Resolvers Key α R U P) (b : KeyedGraphBuilder Key α) (key : Key)
    (resolver : R) (user : U) (out : Nat) : Prop :=
  ∃ fuel call, resolve code fuel b key resolver user out = some call

theorem bodyEnds_of_finish {code : Resolvers Key α R U P} {p : P} {status : GraphStatus}
    {name : String} {work : NodeWork α} (h : code.next p b = .finish status name work user) :
    BodyEnds code b p :=
  ⟨1, _, by rw [runResolver, h]⟩

theorem bodyEnds_of_throw {code : Resolvers Key α R U P} {p : P} {e : Thrown}
    (h : code.next p b = .throw e user) : BodyEnds code b p :=
  ⟨1, _, by rw [runResolver, h]⟩

/-- A body that resolves a key ends when the call does and what follows it does. -/
theorem bodyEnds_of_resolve {code : Resolvers Key α R U P} {p : P} {k : Reply → U → P}
    (h : code.next p b = .resolve key resolver user out k)
    (hcall : CallEnds code b key resolver user out)
    (hrest : ∀ fuel call reply, resolve code fuel b key resolver user out = some call → call.value = .ok reply → BodyEnds code call.ctx (k reply call.user))
    : BodyEnds code b p := by
  obtain ⟨n, call, hn⟩ := hcall
  cases hv : call.value with
  | error e =>
    have hvia : resolveVia code (runResolver code n) b key resolver user out = some call := hn
    exact ⟨n + 1, _, by rw [runResolver, h]; simp only [hvia, hv]; rfl⟩
  | ok reply =>
    obtain ⟨m, rest, hm⟩ := hrest n call reply hn hv
    have hvia : resolveVia code (runResolver code (max n m)) b key resolver user out =
        some call := resolve_of_le (le_max_left n m) hn
    have hgo := runResolver_of_le (le_max_right n m) hm
    exact ⟨max n m + 1, _, by rw [runResolver, h]; simp only [hvia, hv, hgo]; rfl⟩

/-- A call ends when the body of the resolver does, where it has to be called. -/
theorem callEnds_of_body {code : Resolvers Key α R U P} (out : Nat)
    (h : b.resolved key = none → key ∉ b.inProgress → BodyEnds code (b.beginResolve key) (code.enter resolver key user))
    : CallEnds code b key resolver user out := by
  cases hres : b.resolved key with
  | some id =>
    exact ⟨0, ⟨.ok ⟨.success, id⟩, user, b.recordInCallerFrame id, []⟩, by
      simp only [resolve, resolveVia, hres]⟩
  | none =>
    by_cases hin : key ∈ b.inProgress
    · exact ⟨0, ⟨.ok ⟨resolutionCycle, out⟩, user, b, []⟩, by
        simp only [resolve, resolveVia, hres, if_pos hin]⟩
    · obtain ⟨fuel, body, hbody⟩ := h hres hin
      exact ⟨fuel, concludeResolve key b.inProgress out body, by
        simp only [resolve, resolveVia, hres, if_neg hin, hbody, Option.map_some]⟩

/-! ## Discovery over finitely many keys -/

namespace Discovery

variable (keys : Finset Key) (provider : ResolverProvider Key α U)

/-- The discover functions of `keys` return keys of `keys`. -/
def ClosedUnder : Prop :=
  ∀ k ∈ keys, ∀ b user candidates user', provider.discover k b user = (.ok candidates, user') →
    ∀ c ∈ candidates, c ∈ keys

/-- The keys that are not resolved. -/
def unresolved (b : KeyedGraphBuilder Key α) : Finset Key := keys.filter fun k ↦ b.resolved k = none

/-- The keys that are neither resolved nor in progress. -/
def untouched (b : KeyedGraphBuilder Key α) : Finset Key :=
  keys.filter fun k ↦ b.resolved k = none ∧ k ∉ b.inProgress

variable {keys provider} {b b' : KeyedGraphBuilder Key α}

omit [DecidableEq Key] in
theorem unresolved_subset (h : ∀ k, b'.resolved k = none → b.resolved k = none) :
    unresolved keys b' ⊆ unresolved keys b := by
  intro k hk
  simp only [unresolved, Finset.mem_filter] at hk ⊢
  exact ⟨hk.1, h k hk.2⟩

omit [DecidableEq Key] in
/-- A key that got resolved makes the unresolved keys fewer. -/
theorem card_unresolved_lt {key : Key} (hmem : key ∈ keys)
    (h : ∀ k, b'.resolved k = none → b.resolved k = none) (hold : b.resolved key = none)
    (hnew : b'.resolved key ≠ none) : (unresolved keys b').card < (unresolved keys b).card := by
  apply Finset.card_lt_card
  refine ⟨unresolved_subset h, fun hsub ↦ ?_⟩
  have hin : key ∈ unresolved keys b := by simp [unresolved, hmem, hold]
  have := hsub hin
  simp only [unresolved, Finset.mem_filter] at this
  exact hnew this.2

theorem card_untouched_le (h : ∀ k, b'.resolved k = none → b.resolved k = none)
    (hprog : b'.inProgress = b.inProgress) :
    (untouched keys b').card ≤ (untouched keys b).card := by
  apply Finset.card_le_card
  intro k hk
  simp only [untouched, Finset.mem_filter, hprog] at hk ⊢
  exact ⟨hk.1, h k hk.2.1, hk.2.2⟩

/-- Entering the resolver of a key touches it. -/
theorem card_untouched_beginResolve {b : KeyedGraphBuilder Key α} {key : Key}
    (hmem : key ∈ keys) (hnone : b.resolved key = none) (hnot : key ∉ b.inProgress) :
    (untouched keys (b.beginResolve key)).card < (untouched keys b).card := by
  apply Finset.card_lt_card
  constructor
  · intro k hk
    simp only [untouched, Finset.mem_filter, beginResolve, List.mem_cons, not_or] at hk ⊢
    exact ⟨hk.1, hk.2.1, hk.2.2.2⟩
  · intro hsub
    have hin : key ∈ untouched keys b := by simp [untouched, hmem, hnone, hnot]
    have := hsub hin
    simp [untouched, beginResolve] at this

end Discovery

section Ends

open Discovery

variable {keys : Finset Key} {provider : ResolverProvider Key α U}
  (hclosed : ClosedUnder keys provider) {depth : Nat}
  (hcalls : ∀ b : KeyedGraphBuilder Key α, (untouched keys b).card ≤ depth →
    ∀ d ∈ keys, ∀ user out, CallEnds (synthesized provider) b d () user out)

/-- The failure of a dependency ends the body. -/
theorem failed_ends (b : KeyedGraphBuilder Key α) (status : GraphStatus) (user : U) :
    BodyEnds (synthesized provider) b (.failed status user) :=
  bodyEnds_of_finish rfl

include hcalls in
/-- The resolution of the keys a pass left ends, when every later pass does. The first of them
is resolved in what follows, so the later passes see fewer unresolved keys. -/
private theorem dependency_ends {b : KeyedGraphBuilder Key α}
    (hdepth : (untouched keys b).card ≤ depth) {point : DiscoveryPoint Key U} {key d : Key}
    {rest : List Key} {user : U} (hd : d ∈ keys)
    (hnext : (synthesized provider).next point b = afterPass provider key (d :: rest) user)
    (hrest : ∀ b' : KeyedGraphBuilder Key α, ∀ user',
      (∀ k, b'.resolved k = none → b.resolved k = none) →
      b'.inProgress = b.inProgress → b'.resolved d ≠ none →
      BodyEnds (synthesized provider) b' (.resolving key rest user')) :
    BodyEnds (synthesized provider) b point := by
  apply bodyEnds_of_resolve hnext (hcalls b hdepth d hd user 0)
  intro fuel call reply hcall hv
  have hkeeps := resolveVia_keeps (runResolver_keeps _ fuel) hcall
  by_cases hok : reply.status.ok = true
  · rw [afterDependency, if_pos hok]
    exact hrest call.ctx call.user hkeeps.keys.resolved (hkeeps.inProgress reply hv)
      (hkeeps.success reply hv hok)
  · rw [afterDependency, if_neg hok]
    exact failed_ends _ _ _

include hcalls in
/-- The keys a pass left, and the passes that follow. -/
private theorem resolving_ends {key : Key} {bound : Nat}
    (hpass : ∀ b : KeyedGraphBuilder Key α, (untouched keys b).card ≤ depth →
      (unresolved keys b).card < bound → ∀ point user,
      (synthesized provider).next point b = discoveryPass provider b key user →
      BodyEnds (synthesized provider) b point)
    (newlyNeeded : List Key) (hmem : ∀ c ∈ newlyNeeded, c ∈ keys)
    (b : KeyedGraphBuilder Key α) (hdepth : (untouched keys b).card ≤ depth)
    (hbound : (unresolved keys b).card < bound) (user : U) :
    BodyEnds (synthesized provider) b (.resolving key newlyNeeded user) := by
  induction newlyNeeded generalizing b user with
  | nil => exact hpass b hdepth hbound _ user rfl
  | cons d rest ih =>
    apply dependency_ends hcalls hdepth (hmem d List.mem_cons_self) rfl
    intro b' user' hres hprog _
    apply ih fun c hc ↦ hmem c (List.mem_cons_of_mem _ hc)
    · exact (card_untouched_le hres hprog).trans hdepth
    · exact (Finset.card_le_card (unresolved_subset hres)).trans_lt hbound

include hclosed hcalls in
/-- The passes of one resolver end. Every pass but the last makes the unresolved keys fewer. -/
private theorem pass_ends {key : Key} (hkey : key ∈ keys) (count : Nat) :
    ∀ b : KeyedGraphBuilder Key α, (untouched keys b).card ≤ depth →
      (unresolved keys b).card < count → ∀ point user,
      (synthesized provider).next point b = discoveryPass provider b key user →
      BodyEnds (synthesized provider) b point := by
  induction count with
  | zero =>
    intro b _ hcount
    exact absurd hcount (Nat.not_lt_zero _)
  | succ count ih =>
    intro b hdepth hcount point user hnext
    cases hdiscover : provider.discover key b user with
    | mk result user' =>
      rw [discoveryPass, hdiscover] at hnext
      cases result with
      | error e => exact bodyEnds_of_throw hnext
      | ok candidates =>
        have hleft : ∀ c ∈ candidates.filter fun c ↦ !b.isResolved c,
            c ∈ keys ∧ b.resolved c = none := by
          intro c hc
          rw [List.mem_filter] at hc
          refine ⟨hclosed key hkey b user candidates user' hdiscover c hc.1, ?_⟩
          simpa [isResolved] using hc.2
        simp only at hnext
        cases hneeded : candidates.filter fun c ↦ !b.isResolved c with
        | nil =>
          rw [hneeded, afterPass] at hnext
          cases hbuild : provider.build key user' with
          | mk result user'' =>
            simp only [hbuild] at hnext
            cases result with
            | error e => exact bodyEnds_of_throw hnext
            | ok v => exact bodyEnds_of_finish hnext
        | cons d rest =>
          rw [hneeded] at hnext hleft
          apply dependency_ends hcalls hdepth (hleft d List.mem_cons_self).1 hnext
          intro b' user'' hres hprog hd
          apply resolving_ends hcalls ih rest (fun c hc ↦ (hleft c (List.mem_cons_of_mem _ hc)).1)
          · exact (card_untouched_le hres hprog).trans hdepth
          · have := card_unresolved_lt (hleft d List.mem_cons_self).1 hres
              (hleft d List.mem_cons_self).2 hd
            omega

omit hcalls in
include hclosed in
/-- A call ends from every builder, by induction on the number of untouched keys. -/
theorem call_ends (b : KeyedGraphBuilder Key α) (hdepth : (untouched keys b).card ≤ depth)
    {key : Key} (hkey : key ∈ keys) (user : U) (out : Nat) :
    CallEnds (synthesized provider) b key () user out := by
  induction depth generalizing b key user out with
  | zero =>
    apply callEnds_of_body
    intro hnone hnot
    have := card_untouched_beginResolve hkey hnone hnot
    omega
  | succ depth ih =>
    apply callEnds_of_body
    intro hnone hnot
    have := card_untouched_beginResolve hkey hnone hnot
    exact pass_ends hclosed (fun b hb d hd user out ↦ ih b hb hd user out) hkey _ _ (by omega)
      (Nat.lt_succ_self _) _ user rfl

end Ends

/-! ## A key that requires itself -/

/-- Somewhere in a run that started from `b`, a resolver asked for a key whose own resolver was
running and that was not resolved. -/
def RequiresItself (b : KeyedGraphBuilder Key α) (invocations : List (Invocation Key)) : Prop :=
  ∃ inv ∈ invocations, ∃ c ∈ inv.calls, c.key ∈ inv.key :: inv.inProgress ∧ b.resolved c.key = none

/-- A body of discovery reports the cycles in it. -/
def ReportsCycles (b : KeyedGraphBuilder Key α) (body : ResolverRun Key α U) : Prop :=
  (RequiresItself b body.invocations ∨
    ∃ c ∈ body.calls, c.key ∈ b.inProgress ∧ b.resolved c.key = none) →
  ∃ name work, body.value = .ok (resolutionCycle, name, work)

/-- The end of `resolve` after a body that reported its cycles. -/
private theorem concludeResolve_reports (h : ReportsCycles (b.beginResolve key) body) (out : Nat)
    (hcycle : RequiresItself b (concludeResolve key b.inProgress out body).invocations) :
    (concludeResolve key b.inProgress out body).value = .ok ⟨resolutionCycle, out⟩ := by
  have hinvocations : ∃ result node, (concludeResolve key b.inProgress out body).invocations =
      body.invocations ++ [⟨key, b.inProgress, body.calls, result, node⟩] := by
    cases hv : body.value with
    | error e => exact ⟨_, _, by simp only [concludeResolve, hv]; rfl⟩
    | ok v =>
      obtain ⟨status, name, work⟩ := v
      by_cases hok : status.ok = true
      · exact ⟨_, _, by rw [concludeResolve_of_ok hv hok]⟩
      · exact ⟨_, _, by simp only [concludeResolve, hv, if_neg hok]; rfl⟩
  obtain ⟨result, node, hinv⟩ := hinvocations
  rw [hinv] at hcycle
  obtain ⟨inv, hin, c, hc, hkey, hnone⟩ := hcycle
  have hbody : ∃ name work, body.value = .ok (resolutionCycle, name, work) := by
    apply h
    cases List.mem_append.mp hin with
    | inl hin => exact .inl ⟨inv, hin, c, hc, hkey, hnone⟩
    | inr hin =>
      rw [List.mem_singleton.mp hin] at hc hkey
      exact .inr ⟨c, hc, hkey, hnone⟩
  obtain ⟨name, work, hv⟩ := hbody
  have hno : ¬(resolutionCycle.ok = true) := by decide
  simp only [concludeResolve, hv, if_neg hno]

private theorem resolveVia_reports {code : Resolvers Key α R U P}
    (hrun : ∀ b p body, run b p = some body → ReportsCycles b body)
    (h : resolveVia code run b key resolver user out = some call)
    (hcycle : key ∈ b.inProgress ∧ b.resolved key = none ∨ RequiresItself b call.invocations) :
    call.value = .ok ⟨resolutionCycle, out⟩ := by
  unfold resolveVia at h
  cases hres : b.resolved key with
  | some id =>
    simp only [hres, Option.some.injEq] at h
    subst h
    cases hcycle with
    | inl hin => exact absurd hin.2 (by rw [hres]; exact Option.some_ne_none id)
    | inr hin =>
      obtain ⟨inv, hinv, _⟩ := hin
      cases hinv
  | none =>
    simp only [hres] at h
    by_cases hin : key ∈ b.inProgress
    · rw [if_pos hin, Option.some.injEq] at h
      subst h
      rfl
    · rw [if_neg hin] at h
      obtain ⟨body, hbody, rfl⟩ := Option.map_eq_some_iff.mp h
      apply concludeResolve_reports (hrun _ _ _ hbody)
      cases hcycle with
      | inl h' => exact absurd h'.1 hin
      | inr h' => exact h'

/-- The status of a failed dependency is the status of the body. -/
private theorem failed_value {status : GraphStatus}
    (h : runResolver (synthesized provider) fuel b (.failed status user) = some body) :
    ∃ name work, body.value = .ok (status, name, work) := by
  cases fuel with
  | zero => cases h
  | succ fuel =>
    cases h
    exact ⟨_, _, rfl⟩

/-- The rest of a pass reports the cycles of the dependency it resolves next and of what
follows. -/
private theorem dependency_reports
    (ih : ∀ b p body, runResolver (synthesized provider) fuel b p = some body → ReportsCycles b body)
    {key d : Key} {rest : List Key}
    (hnext : (synthesized provider).next point b = afterPass provider key (d :: rest) user)
    (h : runResolver (synthesized provider) (fuel + 1) b point = some body) :
    ReportsCycles b body := by
  rw [runResolver, hnext] at h
  simp only [afterPass] at h
  cases hcall : resolveVia (synthesized provider) (runResolver (synthesized provider) fuel) b d
      () user 0 with
  | none => simp [hcall] at h
  | some call =>
    have hkeeps := resolveVia_keeps (runResolver_keeps _ fuel) hcall
    have hreports := resolveVia_reports ih hcall
    cases hv : call.value with
    | error e =>
      simp only [hcall, hv, Option.some.injEq] at h
      subst h
      intro hcycle
      cases hcycle with
      | inl hin =>
        have := hreports (.inr hin)
        rw [hv] at this
        cases this
      | inr hin =>
        obtain ⟨c, hc, _⟩ := hin
        cases hc
    | ok reply =>
      simp only [hcall, hv] at h
      obtain ⟨tail, htail, rfl⟩ := Option.map_eq_some_iff.mp h
      have hprog := hkeeps.inProgress reply hv
      by_cases hhere : d ∈ b.inProgress ∧ b.resolved d = none ∨ RequiresItself b call.invocations
      · intro _
        have hreply := hreports hhere
        rw [hv, Except.ok.injEq] at hreply
        rw [hreply] at htail
        obtain ⟨name, work, hval⟩ := failed_value htail
        exact ⟨name, work, hval⟩
      · rw [not_or] at hhere
        intro hcycle
        apply ih _ _ _ htail
        -- A key in progress when it is asked for later on is not resolved now either.
        cases hcycle with
        | inl hin =>
          obtain ⟨inv, hinv, c, hc, hkey, hnone⟩ := hin
          cases List.mem_append.mp hinv with
          | inl hin => exact absurd ⟨inv, hin, c, hc, hkey, hnone⟩ hhere.2
          | inr hin =>
            refine .inl ⟨inv, hin, c, hc, hkey, ?_⟩
            cases (runResolver_keeps _ _ _ _ _ htail).keys.entered inv hin c.key hkey with
            | inl hin' => exact hkeeps.keys.pending c.key (hprog ▸ hin') hnone
            | inr hnone' => exact hnone'
        | inr hin =>
          obtain ⟨c, hc, hkey, hnone⟩ := hin
          cases List.mem_cons.mp hc with
          | inl heq =>
            subst heq
            exact absurd ⟨hkey, hnone⟩ hhere.1
          | inr hc => exact .inr ⟨c, hc, hprog ▸ hkey, hkeeps.keys.pending c.key hkey hnone⟩

/-- A point that resolves nothing reports nothing. -/
private theorem reports_of_no_call {R P : Type} {code : Resolvers Key α R U P} {p : P}
    (hno : ∀ key resolver user out k, code.next p b ≠ .resolve key resolver user out k)
    (h : runResolver code (fuel + 1) b p = some body) : ReportsCycles b body := by
  have hempty : body.invocations = [] ∧ body.calls = [] := by
    rw [runResolver] at h
    cases hnext : code.next p b with
    | finish status name work user | throw e user =>
      simp only [hnext, Option.some.injEq] at h
      subst h
      exact ⟨rfl, rfl⟩
    | resolve key resolver user out k => exact absurd hnext (hno _ _ _ _ _)
  intro hcycle
  simp [RequiresItself, hempty] at hcycle

private theorem afterPass_reports
    (ih : ∀ b p body, runResolver (synthesized provider) fuel b p = some body → ReportsCycles b body)
    {newlyNeeded : List Key}
    (hnext : (synthesized provider).next point b = afterPass provider key newlyNeeded user)
    (h : runResolver (synthesized provider) (fuel + 1) b point = some body) :
    ReportsCycles b body := by
  cases newlyNeeded with
  | cons d rest => exact dependency_reports ih hnext h
  | nil =>
    refine reports_of_no_call (fun d resolver u out k ↦ ?_) h
    rw [hnext, afterPass]
    rcases provider.build key user with ⟨_ | _, _⟩ <;> simp

private theorem discoveryPass_reports
    (ih : ∀ b p body, runResolver (synthesized provider) fuel b p = some body → ReportsCycles b body)
    (hnext : (synthesized provider).next point b = discoveryPass provider b key user)
    (h : runResolver (synthesized provider) (fuel + 1) b point = some body) :
    ReportsCycles b body := by
  cases hdiscover : provider.discover key b user with
  | mk result user' =>
    rw [discoveryPass, hdiscover] at hnext
    cases result with
    | error e =>
      refine reports_of_no_call (fun d resolver u out k ↦ ?_) h
      rw [hnext]
      simp
    | ok candidates => exact afterPass_reports ih hnext h

theorem discovery_reports (provider : ResolverProvider Key α U) (fuel : Nat)
    (b : KeyedGraphBuilder Key α) (p : DiscoveryPoint Key U) (body : ResolverRun Key α U)
    (h : runResolver (synthesized provider) fuel b p = some body) : ReportsCycles b body := by
  induction fuel generalizing b p body with
  | zero => cases h
  | succ fuel ih =>
    cases p with
    | pass key user => exact discoveryPass_reports ih rfl h
    | resolving key newlyNeeded user =>
      cases newlyNeeded with
      | nil => exact discoveryPass_reports ih rfl h
      | cons d rest => exact dependency_reports ih rfl h
    | failed status user => exact reports_of_no_call (by simp [synthesized]) h

/-- Discovery over finitely many keys ends from every builder, and a key that is asked for
while its own resolver runs makes the whole call report a cycle. -/
theorem discovery_terminates (keys : Finset Key) (provider : ResolverProvider Key α U)
    (hclosed : Discovery.ClosedUnder keys provider) (b : KeyedGraphBuilder Key α) (key : Key)
    (hkey : key ∈ keys) (user : U) (out : Nat) :
    ∃ enough run, (∀ fuel, enough ≤ fuel →
        resolveWithDiscovery provider fuel b key user out = some run) ∧
      ((key ∈ b.inProgress ∧ b.resolved key = none ∨ RequiresItself b run.invocations) →
        run.value = .ok ⟨resolutionCycle, out⟩) := by
  obtain ⟨enough, run, hrun⟩ := call_ends hclosed b le_rfl hkey user out
  refine ⟨enough, run, fun fuel hle ↦ resolve_of_le hle hrun, fun hcycle ↦ ?_⟩
  exact resolveVia_reports (discovery_reports provider enough) hrun hcycle

/-- Keys `0` and `1` need each other, and key `1` needs itself. -/
def entangled : ResolverProvider Nat Nat Unit where
  discover key _ _ := (.ok (if key = 0 then [1] else [0, 1]), ())
  build _ _ := (.ok (.success, "node", fun _ ↦ .ok none), ())

/-- Resolving key `0` of two keys that need each other reports a cycle. -/
theorem entangled_reported : ∃ enough run, (∀ fuel, enough ≤ fuel →
      resolveWithDiscovery entangled fuel {} 0 () 7 = some run) ∧
    RequiresItself ({} : KeyedGraphBuilder Nat Nat) run.invocations ∧
    run.value = .ok ⟨resolutionCycle, 7⟩ := by
  have hclosed : Discovery.ClosedUnder {0, 1} entangled := by
    intro k _ b user candidates user' h c hc
    simp only [entangled, Prod.mk.injEq, Except.ok.injEq] at h
    rw [← h.1] at hc
    by_cases hk : k = 0
    · simp_all
    · simp_all
  obtain ⟨enough, run, hruns, hcycle⟩ :=
    discovery_terminates {0, 1} entangled hclosed {} 0 (by decide) () 7
  have hrun : resolveWithDiscovery entangled (max enough 4) {} 0 () 7 = some run :=
    hruns _ (le_max_left _ _)
  have hfour : ∃ run', resolveWithDiscovery entangled 4 {} 0 () 7 = some run' ∧
      RequiresItself ({} : KeyedGraphBuilder Nat Nat) run'.invocations := by
    refine ⟨(resolveWithDiscovery entangled 4 {} 0 () 7).get rfl, rfl, ?_⟩
    refine ⟨⟨1, [0], [⟨0, 0, ⟨resolutionCycle, 0⟩⟩], .ok resolutionCycle, none⟩,
      List.mem_cons_self, _, List.mem_cons_self, ?_, rfl⟩
    decide
  obtain ⟨run', hrun', hrequires⟩ := hfour
  have hlarge : resolveWithDiscovery entangled (max enough 4) {} 0 () 7 = some run' :=
    resolve_of_le (le_max_right _ _) hrun'
  rw [hrun, Option.some.injEq] at hlarge
  subst hlarge
  exact ⟨enough, run, hruns, hrequires, hcycle (.inr hrequires)⟩

end KeyedGraphBuilder
end Hisab.Graph
