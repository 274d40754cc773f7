import Hisab.Graph.BuildSpec
import Hisab.Graph.KeyedGraphBuilder

/-!
# What a resolution keeps

One invariant of the builder holds through every call of every resolver: the memo table is a
bijection between the resolved keys and the nodes, edges lead to smaller ids, and no key in
progress is resolved. The spec of `resolve` says besides what a call leaves in the frame of
its caller and how the record of the resolvers called agrees with the graph.
-/

namespace Hisab.Graph

open Base Function List

/-- The ids of the successful calls, in call order. -/
def okIds {Key : Type} (calls : List (ResolveCall Key)) : List Nat :=
  (calls.filter (·.reply.status.ok)).map (·.reply.out)

/-- The frames after ids were recorded in the innermost one. -/
def recordAll (frames : List (List Nat)) (ids : List Nat) : List (List Nat) :=
  match frames with
  | [] => []
  | frame :: frames => (frame ++ ids) :: frames

@[simp] theorem recordAll_nil (frames : List (List Nat)) : recordAll frames [] = frames := by
  cases frames <;> simp [recordAll]

theorem recordAll_append (frames : List (List Nat)) (ids ids' : List Nat) :
    recordAll (recordAll frames ids) ids' = recordAll frames (ids ++ ids') := by
  cases frames <;> simp [recordAll]

namespace KeyedGraphBuilder

variable {Key α R U P : Type} [DecidableEq Key] {b b' : KeyedGraphBuilder Key α}
  {inv : Invocation Key} {key : Key} {b : KeyedGraphBuilder Key α} {res : ResolveRun Key α U}

section Fields

omit [DecidableEq Key]

variable (b : KeyedGraphBuilder Key α) (id : Nat)

@[simp] theorem recordInCallerFrame_builder : (b.recordInCallerFrame id).builder = b.builder := by
  unfold recordInCallerFrame
  split <;> rfl

@[simp] theorem recordInCallerFrame_resolved :
    (b.recordInCallerFrame id).resolved = b.resolved := by
  unfold recordInCallerFrame
  split <;> rfl

@[simp] theorem recordInCallerFrame_inProgress :
    (b.recordInCallerFrame id).inProgress = b.inProgress := by
  unfold recordInCallerFrame
  split <;> rfl

@[simp] theorem recordInCallerFrame_frameStack :
    (b.recordInCallerFrame id).frameStack = recordAll b.frameStack [id] := by
  unfold recordInCallerFrame
  split
  next h => simp [h, recordAll]
  next h => simp [h, recordAll]

end Fields

/-- The loop that declares the edges of a new node. -/
theorem foldl_dependsOn (g : GraphBuilder α) (id : Nat) (dependencies : List Nat) :
    dependencies.foldl (fun g d ↦ g.dependsOn id d) g =
      { g with edges := g.edges ++ dependencies.map fun d ↦ ⟨id, d⟩ } := by
  induction dependencies generalizing g with
  | nil => simp
  | cons d ds ih =>
    rw [foldl_cons, ih]
    simp [GraphBuilder.dependsOn]

/-- What holds of a builder whatever resolvers were called on it. -/
structure Consistent (b : KeyedGraphBuilder Key α) : Prop where
  id_lt : ∀ key id, b.resolved key = some id → id < b.builder.nodes.length
  injective : ∀ key key' id, b.resolved key = some id → b.resolved key' = some id → key = key'
  surjective : ∀ id < b.builder.nodes.length, ∃ key, b.resolved key = some id
  edges : ∀ e ∈ b.builder.edges, e.dependency < e.node ∧ e.node < b.builder.nodes.length
  frames : ∀ frame ∈ b.frameStack, ∀ d ∈ frame, d < b.builder.nodes.length
  pending : ∀ key ∈ b.inProgress, b.resolved key = none

/-- `b'` has the nodes, edges and keys of `b`, and its new edges start at new nodes. -/
structure Grows (b b' : KeyedGraphBuilder Key α) : Prop where
  nodes : b.builder.nodes <+: b'.builder.nodes
  edges : ∃ es, b'.builder.edges = b.builder.edges ++ es ∧ ∀ e ∈ es, b.builder.nodes.length ≤ e.node
  resolved : ∀ key id, b.resolved key = some id → b'.resolved key = some id

omit [DecidableEq Key] in
theorem Grows.refl (b : KeyedGraphBuilder Key α) : Grows b b :=
  ⟨prefix_refl _, ⟨[], by simp, by simp⟩, fun _ _ h ↦ h⟩

omit [DecidableEq Key] in
theorem Grows.trans {a b c : KeyedGraphBuilder Key α} (h : Grows a b) (k : Grows b c) :
    Grows a c := by
  obtain ⟨es, he, hn⟩ := h.edges
  obtain ⟨es', he', hn'⟩ := k.edges
  refine ⟨h.nodes.trans k.nodes, ⟨es ++ es', by rw [he', he, append_assoc], ?_⟩,
    fun key id hr ↦ k.resolved key id (h.resolved key id hr)⟩
  intro e hin
  rcases mem_append.mp hin with hin | hin
  · exact hn e hin
  · exact h.nodes.length_le.trans (hn' e hin)

omit [DecidableEq Key] in
/-- A node keeps its dependencies. -/
theorem Grows.dependenciesOf (h : Grows b b') {id : Nat} (hid : id < b.builder.nodes.length) :
    dependenciesOf b'.builder.edges id = dependenciesOf b.builder.edges id := by
  obtain ⟨es, he, hn⟩ := h.edges
  have hnew : es.filter (·.node = id) = [] := by
    refine filter_eq_nil_iff.mpr fun e hin ↦ ?_
    have := hn e hin
    simp only [decide_eq_true_eq]
    omega
  simp [Graph.dependenciesOf, he, hnew]

/-- How a call was answered: a key in progress as a cycle, a failure with `out` untouched, a
success with the node of the key. -/
structure Answered (inProgress : List Key) (b : KeyedGraphBuilder Key α)
    (c : ResolveCall Key) : Prop where
  cycle : c.key ∈ inProgress → c.reply = ⟨resolutionCycle, c.out⟩
  success : c.reply.status.ok = true → b.resolved c.key = some c.reply.out
  failure : c.reply.status.ok = false → c.reply.out = c.out

/-- The record of a resolver agrees with the graph. -/
structure Faithful (b : KeyedGraphBuilder Key α) (inv : Invocation Key) : Prop where
  entered : inv.key ∉ inv.inProgress
  answered : ∀ c ∈ inv.calls, Answered (inv.key :: inv.inProgress) b c
  node_iff : inv.node.isSome ↔ ∃ status, inv.result = .ok status ∧ status.ok = true
  node : ∀ id, inv.node = some id →
    b.resolved inv.key = some id ∧ dependenciesOf b.builder.edges id = okIds inv.calls

/-- The keys whose resolvers led to a node. -/
def madeKeys (invocations : List (Invocation Key)) : List Key :=
  (invocations.filter (·.node.isSome)).map (·.key)

/-- The resolvers called between `b` and `b'` made its new nodes, each key at most one. -/
structure Recorded (b b' : KeyedGraphBuilder Key α) (invocations : List (Invocation Key)) :
    Prop where
  faithful : ∀ inv ∈ invocations, Faithful b' inv
  resolved_iff : ∀ key id, b'.resolved key = some id ↔
    b.resolved key = some id ∨ ∃ inv ∈ invocations, inv.key = key ∧ inv.node = some id
  fresh : ∀ key ∈ madeKeys invocations, b.resolved key = none
  nodup : (madeKeys invocations).Nodup
  count : b'.builder.nodes.length = b.builder.nodes.length + (madeKeys invocations).length

omit [DecidableEq Key] in
theorem Answered.mono {inProgress : List Key} {c : ResolveCall Key} (h : Answered inProgress b c)
    (hg : Grows b b') : Answered inProgress b' c :=
  ⟨h.cycle, fun hok ↦ hg.resolved _ _ (h.success hok), h.failure⟩

omit [DecidableEq Key] in
theorem Faithful.mono (h : Faithful b inv) (hb : Consistent b) (hg : Grows b b') :
    Faithful b' inv where
  entered := h.entered
  answered c hc := (h.answered c hc).mono hg
  node_iff := h.node_iff
  node id hid := by
    obtain ⟨hr, hd⟩ := h.node id hid
    exact ⟨hg.resolved _ _ hr, (hg.dependenciesOf (hb.id_lt _ _ hr)).trans hd⟩

omit [DecidableEq Key] in
theorem madeKeys_append (l l' : List (Invocation Key)) :
    madeKeys (l ++ l') = madeKeys l ++ madeKeys l' := by
  simp [madeKeys]

omit [DecidableEq Key] in
theorem mem_madeKeys {l : List (Invocation Key)} :
    key ∈ madeKeys l ↔ ∃ inv ∈ l, inv.key = key ∧ ∃ id, inv.node = some id := by
  simp only [madeKeys, mem_map, mem_filter, Option.isSome_iff_exists]
  constructor
  · rintro ⟨inv, ⟨hin, hid⟩, rfl⟩
    exact ⟨inv, hin, rfl, hid⟩
  · rintro ⟨inv, hin, rfl, hid⟩
    exact ⟨inv, ⟨hin, hid⟩, rfl⟩

omit [DecidableEq Key] in
theorem Recorded.nil (b : KeyedGraphBuilder Key α) : Recorded b b [] := by
  constructor <;> simp [madeKeys]

omit [DecidableEq Key] in
/-- The records of two stretches of a run join. -/
theorem Recorded.append {a b c : KeyedGraphBuilder Key α} {l l' : List (Invocation Key)}
    (h : Recorded a b l) (k : Recorded b c l') (hb : Consistent b) (hg : Grows b c) :
    Recorded a c (l ++ l') where
  faithful inv hin := by
    rcases mem_append.mp hin with hin | hin
    · exact (h.faithful inv hin).mono hb hg
    · exact k.faithful inv hin
  resolved_iff key id := by
    rw [k.resolved_iff, h.resolved_iff]
    simp only [mem_append, or_and_right, exists_or, or_assoc]
  fresh key hin := by
    rw [madeKeys_append, mem_append] at hin
    rcases hin with hin | hin
    · exact h.fresh key hin
    · by_contra hne
      obtain ⟨id, hid⟩ := Option.ne_none_iff_exists'.mp hne
      have hbid := (h.resolved_iff key id).mpr (.inl hid)
      rw [k.fresh key hin] at hbid
      cases hbid
  nodup := by
    rw [madeKeys_append]
    refine nodup_append.mpr ⟨h.nodup, k.nodup, fun key hkey key' hkey' heq ↦ ?_⟩
    subst heq
    obtain ⟨inv, hin, hk, id, hid⟩ := mem_madeKeys.mp hkey
    have hbid := (h.resolved_iff key id).mpr (.inr ⟨inv, hin, hk, hid⟩)
    rw [k.fresh key hkey'] at hbid
    cases hbid
  count := by
    rw [k.count, h.count, madeKeys_append, length_append]
    omega

/-! ## One resolution -/

/-- What a `resolve` call on `key` leaves, when it starts from `b`. -/
structure Resolves (b : KeyedGraphBuilder Key α) (key : Key) (out : Nat)
    (run : ResolveRun Key α U) : Prop where
  consistent : Consistent run.ctx
  grows : Grows b run.ctx
  recorded : Recorded b run.ctx run.invocations
  inProgress : ∀ reply, run.value = .ok reply → run.ctx.inProgress = b.inProgress
  frames : ∀ reply, run.value = .ok reply → run.ctx.frameStack =
    recordAll b.frameStack (if reply.status.ok then [reply.out] else [])
  success : ∀ reply, run.value = .ok reply → reply.status.ok = true →
    run.ctx.resolved key = some reply.out
  failure : ∀ reply, run.value = .ok reply → reply.status.ok = false →
    run.ctx.resolved key = none ∧ reply.out = out
  cycle : key ∈ b.inProgress → run.value = .ok ⟨resolutionCycle, out⟩

/-- What the body of a resolver leaves, when it goes on from `b`. -/
structure Runs (b : KeyedGraphBuilder Key α) (body : ResolverRun Key α U) : Prop where
  consistent : Consistent body.ctx
  grows : Grows b body.ctx
  recorded : Recorded b body.ctx body.invocations
  answered : ∀ c ∈ body.calls, Answered b.inProgress body.ctx c
  inProgress : ∀ v, body.value = .ok v → body.ctx.inProgress = b.inProgress
  frames : ∀ v, body.value = .ok v → body.ctx.frameStack = recordAll b.frameStack (okIds body.calls)

/-- A new node for a key: what `addResolved` changes. -/
structure AddsNode (b : KeyedGraphBuilder Key α) (key : Key) (dependencies : List Nat)
    (id : Nat) (b' : KeyedGraphBuilder Key α) : Prop where
  id_eq : id = b.builder.nodes.length
  length : b'.builder.nodes.length = b.builder.nodes.length + 1
  grows : Grows b b'
  consistent : Consistent b'
  resolved : b'.resolved = update b.resolved key (some id)
  dependencies : dependenciesOf b'.builder.edges id = dependencies
  inProgress : b'.inProgress = b.inProgress
  frameStack : b'.frameStack = b.frameStack

theorem addResolved_spec (hb : Consistent b) (hkey : b.resolved key = none)
    (hnot : key ∉ b.inProgress) {dependencies : List Nat}
    (hdeps : ∀ d ∈ dependencies, d < b.builder.nodes.length) (name : String) (work : NodeWork α) :
    AddsNode b key dependencies (b.addResolved key name work dependencies).1
      (b.addResolved key name work dependencies).2 := by
  have hresolved : (b.addResolved key name work dependencies).2.resolved =
      update b.resolved key (some b.builder.nodes.length) := by
    simp [addResolved, hkey, GraphBuilder.addNode]
  have hbuilder : (b.addResolved key name work dependencies).2.builder =
      { nodes := b.builder.nodes ++ [⟨name, work⟩]
        edges := b.builder.edges ++ dependencies.map fun d ↦ ⟨b.builder.nodes.length, d⟩ } := by
    simp [addResolved, GraphBuilder.addNode, foldl_dependsOn]
  have hother : ∀ key' id, update b.resolved key (some b.builder.nodes.length) key' =
      some id → (key' = key ∧ id = b.builder.nodes.length) ∨ b.resolved key' = some id := by
    intro key' id h
    by_cases hk : key' = key
    · subst hk
      rw [update_self, Option.some.injEq] at h
      exact .inl ⟨rfl, h.symm⟩
    · rw [update_of_ne hk] at h
      exact .inr h
  constructor
  case id_eq => rfl
  case length => simp [hbuilder]
  case resolved => exact hresolved
  case inProgress => rfl
  case frameStack => rfl
  case grows =>
    refine ⟨by simp [hbuilder], ⟨_, by rw [hbuilder], ?_⟩, fun key' id h ↦ ?_⟩
    · intro e he
      obtain ⟨d, _, rfl⟩ := mem_map.mp he
      exact le_rfl
    · have hne : key' ≠ key := fun h' ↦ by rw [h', hkey] at h; cases h
      rw [hresolved, update_of_ne hne]
      exact h
  case dependencies =>
    have hold : b.builder.edges.filter (·.node = b.builder.nodes.length) = [] := by
      refine filter_eq_nil_iff.mpr fun e he ↦ ?_
      have := (hb.edges e he).2
      simp only [decide_eq_true_eq]
      omega
    change Graph.dependenciesOf (b.addResolved key name work dependencies).2.builder.edges
      b.builder.nodes.length = dependencies
    simp [Graph.dependenciesOf, hbuilder, hold, filter_map, Function.comp_def]
  case consistent =>
    constructor
    · intro key' id h
      rw [hresolved] at h
      rw [hbuilder, length_append, length_singleton]
      rcases hother key' id h with ⟨_, rfl⟩ | h
      · omega
      · have := hb.id_lt _ _ h
        omega
    · intro k₁ k₂ id h₁ h₂
      rw [hresolved] at h₁ h₂
      rcases hother k₁ id h₁ with ⟨hk₁, hi₁⟩ | hr₁ <;> rcases hother k₂ id h₂ with ⟨hk₂, hi₂⟩ | hr₂
      · rw [hk₁, hk₂]
      · exact absurd (hb.id_lt _ _ hr₂) (by omega)
      · exact absurd (hb.id_lt _ _ hr₁) (by omega)
      · exact hb.injective _ _ _ hr₁ hr₂
    · intro id hid
      rw [hbuilder, length_append] at hid
      rw [hresolved]
      rcases Nat.lt_succ_iff_lt_or_eq.mp hid with hid | rfl
      · obtain ⟨key', h⟩ := hb.surjective id hid
        have hne : key' ≠ key := fun h' ↦ by rw [h', hkey] at h; cases h
        exact ⟨key', by rw [update_of_ne hne, h]⟩
      · exact ⟨key, update_self ..⟩
    · intro e he
      rw [hbuilder] at he ⊢
      simp only [length_append, length_singleton]
      rcases mem_append.mp he with he | he
      · have := hb.edges e he
        omega
      · obtain ⟨d, hd, rfl⟩ := mem_map.mp he
        have := hdeps d hd
        dsimp only
        omega
    · intro frame hf d hd
      have := hb.frames frame hf d hd
      rw [hbuilder, length_append]
      omega
    · intro key' hin
      have hne : key' ≠ key := fun h ↦ hnot (h ▸ hin)
      rw [hresolved, update_of_ne hne]
      exact hb.pending key' hin

omit [DecidableEq Key] in
/-- A resolver that made no node adds its record only. -/
theorem Recorded.unmade (hf : Faithful b inv) (hnode : inv.node = none) : Recorded b b [inv] where
  faithful := by simpa using hf
  resolved_iff := by simp [hnode]
  fresh := by simp [madeKeys, hnode]
  nodup := by simp [madeKeys, hnode]
  count := by simp [madeKeys, hnode]

/-- A resolver whose key got a node. -/
theorem Recorded.made {id : Nat} (hlength : b'.builder.nodes.length = b.builder.nodes.length + 1)
    (hresolved : b'.resolved = update b.resolved inv.key (some id))
    (hkey : b.resolved inv.key = none) (hf : Faithful b' inv) (hnode : inv.node = some id) :
    Recorded b b' [inv] where
  faithful := by simpa using hf
  resolved_iff key id' := by
    rw [hresolved]
    by_cases hk : key = inv.key
    · subst hk
      simp [hkey, hnode]
    · simp [update_of_ne hk, Ne.symm hk]
  fresh := by simp [madeKeys, hkey]
  nodup := by simp [madeKeys, hnode]
  count := by simp [madeKeys, hnode, hlength]

omit [DecidableEq Key] in
theorem mem_recordAll {frames : List (List Nat)} {ids : List Nat} {frame : List Nat} {d : Nat}
    (hf : frame ∈ recordAll frames ids) (hd : d ∈ frame) :
    (∃ frame ∈ frames, d ∈ frame) ∨ d ∈ ids := by
  cases frames with
  | nil => cases hf
  | cons first rest =>
    rcases mem_cons.mp hf with rfl | hf
    · rcases mem_append.mp hd with hd | hd
      · exact .inl ⟨first, by simp, hd⟩
      · exact .inr hd
    · exact .inl ⟨frame, by simp [hf], hd⟩

omit [DecidableEq Key] in
/-- Recording the node of a resolved key keeps the invariant. -/
theorem Consistent.recordInCallerFrame (hb : Consistent b) {id : Nat}
    (hid : id < b.builder.nodes.length) : Consistent (b.recordInCallerFrame id) where
  id_lt := by simpa using hb.id_lt
  injective := by simpa using hb.injective
  surjective := by simpa using hb.surjective
  edges := by simpa using hb.edges
  frames frame hf d hd := by
    rw [recordInCallerFrame_frameStack] at hf
    rw [recordInCallerFrame_builder]
    rcases mem_recordAll hf hd with ⟨frame', hf', hd'⟩ | hd'
    · exact hb.frames frame' hf' d hd'
    · exact mem_singleton.mp hd' ▸ hid
  pending := by simpa using hb.pending

omit [DecidableEq Key] in
theorem Consistent.beginResolve (hb : Consistent b) (hkey : b.resolved key = none) :
    Consistent (b.beginResolve key) where
  id_lt := hb.id_lt
  injective := hb.injective
  surjective := hb.surjective
  edges := hb.edges
  frames frame hf d hd := by
    rcases mem_cons.mp hf with rfl | hf
    · cases hd
    · exact hb.frames frame hf d hd
  pending key' hin := by
    rcases mem_cons.mp hin with rfl | hin
    · exact hkey
    · exact hb.pending key' hin

theorem Consistent.endResolve (hb : Consistent b) (key : Key) : Consistent (b.endResolve key) where
  id_lt := hb.id_lt
  injective := hb.injective
  surjective := hb.surjective
  edges := hb.edges
  frames frame hf d hd := hb.frames frame (mem_of_mem_tail hf) d hd
  pending key' hin := hb.pending key' (mem_of_mem_erase hin)

theorem concludeResolve_user (key : Key) (inProgress : List Key) (out : Nat)
    (body : ResolverRun Key α U) :
    (concludeResolve key inProgress out body).user = body.user := by
  unfold concludeResolve
  split
  · rfl
  · split <;> rfl

/-- The end of `resolve` keeps the nodes of the keys. -/
theorem concludeResolve_resolved (key : Key) (inProgress : List Key) (out : Nat)
    (body : ResolverRun Key α U) {key' : Key} {id : Nat}
    (h : body.ctx.resolved key' = some id) :
    (concludeResolve key inProgress out body).ctx.resolved key' = some id := by
  unfold concludeResolve
  split
  · exact h
  · split
    · rw [recordInCallerFrame_resolved]
      simp only [addResolved]
      split
      · exact h
      next hnone =>
        have hne : key' ≠ key := fun heq ↦ hnone (by
          rw [← heq]
          exact Option.isSome_iff_exists.mpr ⟨id, h⟩)
        rw [update_of_ne hne]
        exact h
    · exact h

/-- The end of `resolve` after its resolver returned success. -/
theorem concludeResolve_of_ok {body : ResolverRun Key α U} {status : GraphStatus}
    {name : String} {work : NodeWork α} (hv : body.value = .ok (status, name, work))
    (hok : status.ok = true) (key : Key) (inProgress : List Key) (out : Nat) :
    concludeResolve key inProgress out body =
      let added :=
        (body.ctx.endResolve key).addResolved key name work (body.ctx.frameStack.headD [])
      { value := .ok ⟨.success, added.1⟩
        user := body.user
        ctx := added.2.recordInCallerFrame added.1
        invocations :=
          body.invocations ++ [⟨key, inProgress, body.calls, .ok status, some added.1⟩] } := by
  simp [concludeResolve, hv, hok]

section Conclude

variable {b : KeyedGraphBuilder Key α} {key : Key} {body : ResolverRun Key α U}
  (hkey : b.resolved key = none) (hnot : key ∉ b.inProgress)
  (h : Runs (b.beginResolve key) body)

include h in
/-- The builder once the frame of a resolver that returned is gone. -/
private theorem endResolve_spec {v : GraphStatus × String × NodeWork α} (hv : body.value = .ok v) :
    (body.ctx.endResolve key).Consistent ∧ Grows b (body.ctx.endResolve key) ∧
      Recorded b (body.ctx.endResolve key) body.invocations ∧
      (body.ctx.endResolve key).inProgress = b.inProgress ∧
      (body.ctx.endResolve key).frameStack = b.frameStack ∧
      (body.ctx.endResolve key).resolved key = none ∧
      body.ctx.frameStack = okIds body.calls :: b.frameStack := by
  have hstack : body.ctx.frameStack = okIds body.calls :: b.frameStack := by
    simpa [beginResolve, recordAll] using h.frames _ hv
  have hsame : Grows body.ctx (body.ctx.endResolve key) :=
    ⟨prefix_refl _, ⟨[], by simp [endResolve], by simp⟩, fun _ _ hr ↦ hr⟩
  refine ⟨h.consistent.endResolve key, ⟨h.grows.nodes, h.grows.edges, h.grows.resolved⟩,
    ⟨fun inv hin ↦ (h.recorded.faithful inv hin).mono h.consistent hsame,
      h.recorded.resolved_iff, h.recorded.fresh, h.recorded.nodup, h.recorded.count⟩,
    ?_, ?_, ?_, hstack⟩
  · simp [endResolve, h.inProgress _ hv, beginResolve]
  · simp [endResolve, hstack]
  · refine h.consistent.pending key ?_
    rw [h.inProgress _ hv]
    exact mem_cons_self

include hnot h in
private theorem concludeResolve_ok_spec {status : GraphStatus} {name : String}
    {work : NodeWork α} (hv : body.value = .ok (status, name, work)) (hok : status.ok = true)
    (out : Nat) : Resolves b key out (concludeResolve key b.inProgress out body) := by
  obtain ⟨hend, hgrows, hrec, hprog, hframes, hpend, hstack⟩ := endResolve_spec h hv
  have hdeps : ∀ d ∈ body.ctx.frameStack.headD [],
      d < (body.ctx.endResolve key).builder.nodes.length := by
    intro d hd
    rw [hstack] at hd
    exact h.consistent.frames _ (by rw [hstack]; exact mem_cons_self) d hd
  have hadd := addResolved_spec hend hpend (hprog ▸ hnot) hdeps name work
  rw [concludeResolve_of_ok hv hok]
  generalize (body.ctx.endResolve key).addResolved key name work
    (body.ctx.frameStack.headD []) = added at hadd ⊢
  obtain ⟨id, ctx⟩ := added
  dsimp only at hadd ⊢
  have hid : ctx.resolved key = some id := by rw [hadd.resolved, update_self]
  have hcons := hadd.consistent.recordInCallerFrame (hadd.consistent.id_lt key id hid)
  have hall : Grows (body.ctx.endResolve key) (ctx.recordInCallerFrame id) :=
    hadd.grows.trans ⟨by simp, ⟨[], by simp, by simp⟩, by simp⟩
  have hf : Faithful (ctx.recordInCallerFrame id)
      ⟨key, b.inProgress, body.calls, .ok status, some id⟩ := by
    refine ⟨hnot, fun c hc ↦ ?_, by simpa using hok, fun id' hid' ↦ ?_⟩
    · have hgrow : Grows body.ctx (ctx.recordInCallerFrame id) :=
        ⟨hall.nodes, hall.edges, hall.resolved⟩
      exact (h.answered c hc).mono hgrow
    · obtain rfl : id = id' := by simpa using hid'
      refine ⟨by simpa using hid, ?_⟩
      rw [recordInCallerFrame_builder, hadd.dependencies, hstack]
      rfl
  have hmade := Recorded.made (by simpa using hadd.length)
    (by simpa using hadd.resolved) hpend hf rfl
  exact
    { consistent := hcons
      grows := hgrows.trans hall
      recorded := hrec.append hmade hend hall
      inProgress := by simpa using hadd.inProgress.trans hprog
      frames := by
        intro reply hr
        cases hr
        simp [hadd.frameStack, hframes]
      success := by
        intro reply hr _
        cases hr
        simpa using hid
      failure := by
        intro reply hr hno
        cases hr
        cases hno
      cycle := fun hin ↦ absurd hin hnot }

include hnot h in
/-- The end of `resolve` after a resolver's body that met its spec. -/
theorem concludeResolve_spec (out : Nat) :
    Resolves b key out (concludeResolve key b.inProgress out body) := by
  cases hv : body.value with
  | error e =>
    -- The resolver threw: nothing is undone, and no reply is given.
    have hf : Faithful body.ctx ⟨key, b.inProgress, body.calls, .error e, none⟩ :=
      ⟨hnot, h.answered, by simp, by simp⟩
    have hrec : Recorded b body.ctx body.invocations :=
      ⟨h.recorded.faithful, h.recorded.resolved_iff, h.recorded.fresh, h.recorded.nodup,
        h.recorded.count⟩
    simp only [concludeResolve, hv]
    exact
      { consistent := h.consistent
        grows := ⟨h.grows.nodes, h.grows.edges, h.grows.resolved⟩
        recorded := hrec.append (.unmade hf rfl) h.consistent (.refl _)
        inProgress := by simp
        frames := by simp
        success := by simp
        failure := by simp
        cycle := fun hin ↦ absurd hin hnot }
  | ok v =>
    obtain ⟨status, name, work⟩ := v
    by_cases hok : status.ok = true
    · exact concludeResolve_ok_spec hnot h hv hok out
    · obtain ⟨hend, hgrows, hrec, hprog, hframes, hpend, hstack⟩ := endResolve_spec h hv
      have hf : Faithful (body.ctx.endResolve key)
          ⟨key, b.inProgress, body.calls, .ok status, none⟩ :=
        ⟨hnot, fun c hc ↦ ⟨(h.answered c hc).cycle, (h.answered c hc).success,
          (h.answered c hc).failure⟩, by simpa using hok, by simp⟩
      simp only [concludeResolve, hv, if_neg hok]
      exact
        { consistent := hend
          grows := hgrows
          recorded := hrec.append (.unmade hf rfl) hend (.refl _)
          inProgress := by simpa using hprog
          frames := by simpa [hok] using hframes
          success := by simp [hok]
          failure := fun reply hr _ ↦ ⟨hpend, by cases hr; rfl⟩
          cycle := fun hin ↦ absurd hin hnot }

end Conclude

/-! ## Runs -/

/-- A `resolve` call from a consistent builder, when the resolver's body meets its spec. -/
theorem resolveVia_spec {code : Resolvers Key α R U P}
    {run : KeyedGraphBuilder Key α → P → Option (ResolverRun Key α U)}
    (hrun : ∀ b p body, Consistent b → run b p = some body → Runs b body) (hb : Consistent b)
    {resolver : R} {user : U} {out : Nat}
    (h : resolveVia code run b key resolver user out = some res) : Resolves b key out res := by
  unfold resolveVia at h
  split at h
  next id hid =>
    cases h
    have hlast : Grows b (b.recordInCallerFrame id) := ⟨by simp, ⟨[], by simp, by simp⟩, by simp⟩
    exact
      { consistent := hb.recordInCallerFrame (hb.id_lt _ _ hid)
        grows := hlast
        recorded := by constructor <;> simp [madeKeys]
        inProgress := by simp
        frames := by
          intro reply hr
          cases hr
          simp
        success := by
          intro reply hr _
          cases hr
          simpa using hid
        failure := by
          intro reply hr hno
          cases hr
          cases hno
        cycle := fun hin ↦ by
          rw [hb.pending key hin] at hid
          cases hid }
  next hnone =>
    split at h
    next hin =>
      cases h
      exact
        { consistent := hb
          grows := .refl b
          recorded := .nil b
          inProgress := by simp
          frames := by
            intro reply hr
            cases hr
            simp [resolutionCycle, GraphStatus.failure, GraphStatus.ok]
          success := by
            intro reply hr hok
            cases hr
            cases hok
          failure := by
            intro reply hr _
            cases hr
            exact ⟨hnone, rfl⟩
          cycle := fun _ ↦ rfl }
    next hnot =>
      obtain ⟨body, hbody, rfl⟩ := Option.map_eq_some_iff.mp h
      exact concludeResolve_spec hnot (hrun _ _ _ (hb.beginResolve hnone) hbody) out

omit [DecidableEq Key] in
/-- A call that returned, as its caller sees it. -/
theorem Resolves.answered {out : Nat} (h : Resolves b key out res) {reply : Reply}
    (hr : res.value = .ok reply) : Answered b.inProgress res.ctx ⟨key, out, reply⟩ where
  cycle hin := by
    have := (h.cycle hin).symm.trans hr
    exact (Except.ok.inj this).symm
  success hok := h.success reply hr hok
  failure hno := (h.failure reply hr hno).2

/-- The body of a resolver from a consistent builder on. -/
theorem runResolver_spec (code : Resolvers Key α R U P) (fuel : Nat)
    (b : KeyedGraphBuilder Key α) (p : P) (body : ResolverRun Key α U) (hb : Consistent b)
    (h : runResolver code fuel b p = some body) : Runs b body := by
  induction fuel generalizing b p body with
  | zero => cases h
  | succ fuel ih =>
    rw [runResolver] at h
    cases hnext : code.next p b with
    | finish status name work user =>
      simp only [hnext] at h
      cases h
      exact
        { consistent := hb, grows := .refl b, recorded := .nil b, answered := by simp
          inProgress := by simp, frames := by simp [okIds] }
    | throw e user =>
      simp only [hnext] at h
      cases h
      exact
        { consistent := hb, grows := .refl b, recorded := .nil b, answered := by simp
          inProgress := by simp, frames := by simp }
    | resolve key resolver user out k =>
      simp only [hnext] at h
      split at h
      · cases h
      next call hcall =>
        have hc : Resolves b key out call := resolveVia_spec ih hb hcall
        split at h
        next e he =>
          cases h
          exact
            { consistent := hc.consistent, grows := hc.grows, recorded := hc.recorded
              answered := by simp, inProgress := by simp, frames := by simp }
        next reply hreply =>
          obtain ⟨rest, hrest, rfl⟩ := Option.map_eq_some_iff.mp h
          have hr : Runs call.ctx rest := ih _ _ _ hc.consistent hrest
          exact
            { consistent := hr.consistent
              grows := hc.grows.trans hr.grows
              recorded := hc.recorded.append hr.recorded hc.consistent hr.grows
              answered := by
                intro c hin
                rcases mem_cons.mp hin with rfl | hin
                · exact (hc.answered hreply).mono hr.grows
                · exact hc.inProgress _ hreply ▸ hr.answered c hin
              inProgress := fun v hv ↦ (hr.inProgress v hv).trans (hc.inProgress _ hreply)
              frames := by
                intro v hv
                rw [hr.frames v hv, hc.frames _ hreply, recordAll_append]
                cases hok : reply.status.ok <;> simp [okIds, hok] }

/-- A `resolve` call from a consistent builder. -/
theorem resolve_spec {code : Resolvers Key α R U P} {fuel : Nat} (hb : Consistent b) {resolver : R}
    {user : U} {out : Nat} (h : resolve code fuel b key resolver user out = some res) :
    Resolves b key out res :=
  resolveVia_spec (runResolver_spec code fuel) hb h

end KeyedGraphBuilder
end Hisab.Graph
