import Hisab.Graph.BuildSpec

/-!
# The graph executor

`graph_executor::run` (`graph_executor.cpp:37–153`): the caller pushes one task for each node in
topological order, waits, and reads the results. A task starts when the futures of its priors are
ready, which is the contract of `push_dependent`; which thread runs it does not matter. What a task
reads of its priors no longer changes then, so reading it and calling the work are one step. Every
interleaving comes to what the works give one after another.
-/

namespace Hisab.Graph

open Base Function List

variable {α : Type}

/-! ## One node after another -/

/-- What becomes of a node: its own result, what its work throws, or nothing, because a
dependency has failed. -/
inductive NodeOutcome (α : Type)
  | value (v : Any α)
  | threw (e : Thrown)
  | skipped

namespace NodeOutcome

/-- `node_failed`. -/
@[simp] def failed : NodeOutcome α → Bool
  | .value _ => false
  | .threw _ | .skipped => true

/-- What the node's future holds. -/
@[simp] def result : NodeOutcome α → Any α
  | .value v => v
  | .threw _ | .skipped => none

end NodeOutcome

namespace DependencyGraph

/-- A node's outcome, given those of its dependencies. -/
def Node.outcome (n : Node α) (E : Nat → NodeOutcome α) : NodeOutcome α :=
  if (n.dependencies.map E).any NodeOutcome.failed then .skipped
  else
    match n.work ((n.dependencies.map E).map NodeOutcome.result) with
    | .ok v => .value v
    | .error e => .threw e

/-- The outcome of the node with this id goes into the table. -/
def evaluateNode (g : DependencyGraph α) (E : Nat → NodeOutcome α) (id : Nat) :
    Nat → NodeOutcome α :=
  match g.nodeAt id with
  | some n => update E id (n.outcome E)
  | none => E

/-- The nodes one after another, in topological order. -/
def evaluate (g : DependencyGraph α) : Nat → NodeOutcome α :=
  g.topologicalOrder.foldl g.evaluateNode fun _ ↦ .skipped

/-- What `record_failure` is told of the exception (`graph_executor.cpp:117, 123`). -/
def Node.failureMessage (n : Node α) : Thrown → String
  | .exception what => what
  | .unknown => "unknown exception in node \"" ++ n.name ++ "\""

end DependencyGraph

/-! ## The run -/

/-- `graph_execution_status` (`graph_types.h:83–130`): success, or the failed node with its
message. -/
inductive GraphExecutionStatus
  | success
  | failure (failedNode : Nat) (message : String)
deriving Repr, DecidableEq

/-- The place that the task of a node has reached (`graph_executor.cpp:80–126`). -/
inductive TaskPhase (α : Type)
  | unpushed
  | waiting
  | recording (e : Thrown)
  | writing (e : Thrown)
  | returning (v : Any α)
  | ready (v : Any α)

/-- The task is pushed and its future is not ready. -/
def TaskPhase.runs : TaskPhase α → Bool
  | .unpushed | .ready _ => false
  | _ => true

/-- The place that the caller of `run` has reached. -/
inductive RunPhase (α : Type)
  | pushing (rest : List Nat)
  | storing (id : Nat) (rest : List Nat)
  | waiting
  | reading (outResults : List (Nat × Any α))
  | loading (outResults : List (Nat × Any α))
  | returned (outResults : List (Nat × Any α)) (status : GraphExecutionStatus)

/-- The ids whose futures are still to be stored. -/
def RunPhase.rest : RunPhase α → List Nat
  | .pushing rest => rest
  | .storing id rest => id :: rest
  | _ => []

/-- A task, the flag of its node in `node_failed`, and how often the work was called. -/
structure TaskRun (α : Type) where
  phase : TaskPhase α := .unpushed
  failed : Bool := false
  calls : Nat := 0

/-- The variables of a run. `stored` holds the ids whose entry of `futures` is written, and
`nullRead` says that an entry was read before it was written. -/
structure GraphRun (α : Type) where
  main : RunPhase α
  task : Nat → TaskRun α := fun _ ↦ {}
  stored : List Nat := []
  failureRecorded : Bool := false
  failedNodeId : Nat := 0
  failedMessage : String := ""
  nullRead : Bool := false

/-- A step of the caller, or of the task of a node. -/
inductive RunStep
  | main
  | task (id : Nat)
deriving Repr, DecidableEq

namespace GraphRun

/-- The value of a future that is ready. -/
def value? (s : GraphRun α) (id : Nat) : Option (Any α) :=
  match (s.task id).phase with
  | .ready v => some v
  | _ => none

/-- The task of a node goes on. -/
def setTask (s : GraphRun α) (id : Nat) (x : TaskRun α) : GraphRun α :=
  { s with task := update s.task id x }

/-- The next step of the caller; `none` while `wait` has a future to wait for. -/
def stepMain (g : DependencyGraph α) (s : GraphRun α) : Option (GraphRun α) :=
  match s.main with
  | .pushing [] => some { s with main := .waiting }
  | .pushing (id :: rest) =>
    -- `dep_futures` is read from the entries of the dependencies.
    let nullRead := s.nullRead || (g.nodeAt id).any fun n ↦ !n.dependencies.all (· ∈ s.stored)
    some { s.setTask id { phase := .waiting } with main := .storing id rest, nullRead := nullRead }
  | .storing id rest => some { s with main := .pushing rest, stored := s.stored ++ [id] }
  | .waiting =>
    if (List.range g.nodeCount).all fun id ↦ (s.value? id).isSome then
      some { s with main := .reading [] }
    else none
  | .reading outResults =>
    if outResults.length < g.nodeCount then
      (s.value? outResults.length).map fun v ↦
        { s with main := .reading (outResults ++ [(outResults.length, v)]) }
    else some { s with main := .loading outResults }
  | .loading outResults =>
    some { s with
      main := .returned outResults
        (if s.failureRecorded then .failure s.failedNodeId s.failedMessage else .success) }
  | .returned _ _ => none

/-- The next step of the task of node `id`; `none` while a prior is not ready. -/
def stepTask (s : GraphRun α) (id : Nat) (n : DependencyGraph.Node α) : Option (GraphRun α) :=
  let x := s.task id
  match x.phase with
  | .unpushed | .ready _ => none
  | .waiting =>
    if n.dependencies.all fun d ↦ (s.value? d).isSome then
      if n.dependencies.any fun d ↦ (s.task d).failed then
        some (s.setTask id { x with phase := .returning none, failed := true })
      else
        let inputs := n.dependencies.map fun d ↦ (s.value? d).getD none
        let s := { s with nullRead := s.nullRead || !n.dependencies.all (· ∈ s.stored) }
        match n.work inputs with
        | .ok v => some (s.setTask id { x with phase := .returning v, calls := x.calls + 1 })
        | .error e =>
          some (s.setTask id { phase := .recording e, failed := true, calls := x.calls + 1 })
    else none
  | .recording e =>
    -- Only one `compare_exchange_strong` succeeds.
    let phase := if s.failureRecorded then .returning none else .writing e
    some { s.setTask id { x with phase := phase } with failureRecorded := true }
  | .writing e =>
    some { s.setTask id { x with phase := .returning none } with
      failedNodeId := id, failedMessage := n.failureMessage e }
  | .returning v => some (s.setTask id { x with phase := .ready v })

def step (g : DependencyGraph α) (s : GraphRun α) : RunStep → Option (GraphRun α)
  | .main => s.stepMain g
  | .task id => (g.nodeAt id).bind (s.stepTask id)

end GraphRun

/-- The runs of the executor on a graph. -/
def graphExecutor (g : DependencyGraph α) : TransitionSystem (GraphRun α) RunStep where
  init s := s = { main := .pushing g.topologicalOrder }
  step s l t := s.step g l = some t

variable {g : DependencyGraph α} {s t : GraphRun α} {id : Nat} {n : DependencyGraph.Node α}
  {E E' : Nat → NodeOutcome α}

/-! ## The evaluation -/

theorem DependencyGraph.Node.outcome_congr (h : ∀ d ∈ n.dependencies, E d = E' d) :
    n.outcome E = n.outcome E' := by
  rw [Node.outcome, Node.outcome, map_congr_left h]

theorem DependencyGraph.evaluateNode_of_ne {v : Nat} (h : id ≠ v) :
    g.evaluateNode E v id = E id := by
  unfold evaluateNode
  cases g.nodeAt v with
  | none => rfl
  | some n => exact update_of_ne h ..

/-- Along a schedule every node gets the outcome that the outcomes of its dependencies give it. -/
theorem DependencyGraph.foldl_evaluateNode {order : List Nat} (hnodup : order.Nodup)
    (hs : Schedule (fun v u ↦ ∃ n, g.nodeAt v = some n ∧ u ∈ n.dependencies) order)
    (hid : id ∈ order) (hn : g.nodeAt id = some n) :
    order.foldl g.evaluateNode E id = n.outcome (order.foldl g.evaluateNode E) := by
  induction order using reverseRecOn generalizing id n with
  | nil => cases hid
  | append_singleton order w ih =>
    obtain ⟨ho, hw⟩ := schedule_snoc.mp hs
    obtain ⟨hnodup, -, hdisjoint⟩ := nodup_append.mp hnodup
    have hne {u : Nat} (hu : u ∈ order) : u ≠ w := hdisjoint u hu w mem_cons_self
    rw [foldl_append]
    change g.evaluateNode (order.foldl g.evaluateNode E) w id =
      n.outcome (g.evaluateNode (order.foldl g.evaluateNode E) w)
    have hdeps (hsub : ∀ d ∈ n.dependencies, d ∈ order) :
        n.outcome (g.evaluateNode (order.foldl g.evaluateNode E) w) =
          n.outcome (order.foldl g.evaluateNode E) :=
      Node.outcome_congr fun d hd ↦ evaluateNode_of_ne (hne (hsub d hd))
    rcases mem_append.mp hid with hid | hid
    · rw [evaluateNode_of_ne (hne hid), ih hnodup ho hid hn, hdeps]
      exact fun d hd ↦ ho.closed hid ⟨n, hn, hd⟩
    · obtain rfl := mem_singleton.mp hid
      rw [hdeps fun d hd ↦ hw d ⟨n, hn, hd⟩, evaluateNode, hn]
      exact update_self ..

namespace DependencyGraph.WellFormed

theorem mem_order (h : g.WellFormed) : id ∈ g.topologicalOrder ↔ id < g.nodeCount := by
  rw [h.order_perm.mem_iff, mem_range]

theorem exists_node (h : g.WellFormed) (hid : id ∈ g.topologicalOrder) :
    ∃ n, g.nodeAt id = some n :=
  ⟨_, getElem?_eq_getElem (h.mem_order.mp hid)⟩

theorem evaluate_eq (h : g.WellFormed) (hn : g.nodeAt id = some n) :
    g.evaluate id = n.outcome g.evaluate :=
  foldl_evaluateNode (h.order_perm.nodup_iff.mpr nodup_range) h.schedule
    (h.mem_order.mpr (List.getElem?_eq_some_iff.mp hn).1) hn

end DependencyGraph.WellFormed

/-! ## The invariant -/

namespace GraphRun

/-- The future is ready. -/
def Ready (s : GraphRun α) (id : Nat) : Prop := (s.value? id).isSome

/-- What a task has found out and written. -/
def TaskOk (g : DependencyGraph α) (recorded : Bool) (id : Nat) (x : TaskRun α) : Prop :=
  match x.phase with
  | .unpushed | .waiting => x.failed = false ∧ x.calls = 0
  | .recording e => g.evaluate id = .threw e ∧ x.calls = 1 ∧ x.failed = true
  | .writing e => g.evaluate id = .threw e ∧ x.calls = 1 ∧ x.failed = true ∧ recorded = true
  | .returning v | .ready v =>
    v = (g.evaluate id).result ∧ x.failed = (g.evaluate id).failed ∧ x.calls ≤ 1 ∧
      (x.calls = 0 ↔ g.evaluate id = .skipped) ∧
      ∀ e, g.evaluate id = .threw e → recorded = true

/-- The record names a node whose own work has thrown, with its message. -/
def NamesFailure (g : DependencyGraph α) (s : GraphRun α) : Prop :=
  ∃ n e, g.nodeAt s.failedNodeId = some n ∧ g.evaluate s.failedNodeId = .threw e ∧
    s.failedMessage = n.failureMessage e

/-- The results of the first `k` nodes. -/
def results (g : DependencyGraph α) (k : Nat) : List (Nat × Any α) :=
  (range k).map fun id ↦ (id, (g.evaluate id).result)

/-- What the caller has read. -/
def MainOk (g : DependencyGraph α) (s : GraphRun α) : Prop :=
  match s.main with
  | .pushing _ | .storing _ _ | .waiting => True
  | .reading out =>
    (∀ id < g.nodeCount, s.Ready id) ∧ out.length ≤ g.nodeCount ∧ out = results g out.length
  | .loading out => (∀ id < g.nodeCount, s.Ready id) ∧ out = results g g.nodeCount
  | .returned out status =>
    (∀ id < g.nodeCount, s.Ready id) ∧ out = results g g.nodeCount ∧
      status = if s.failureRecorded then .failure s.failedNodeId s.failedMessage else .success

/-- What holds in every state of a run. -/
structure Exact (g : DependencyGraph α) (s : GraphRun α) : Prop where
  order : g.topologicalOrder = s.stored ++ s.main.rest
  pushed : ∀ id, (s.task id).phase ≠ .unpushed ↔
    id ∈ s.stored ∨ ∃ rest, s.main = .storing id rest
  task : ∀ id < g.nodeCount, TaskOk g s.failureRecorded id (s.task id)
  record : s.failureRecorded = true →
    (∃ id e, (s.task id).phase = .writing e) ∨ s.NamesFailure g
  nullRead : s.nullRead = false
  main : s.MainOk g

theorem value?_eq_some {v : Any α} : s.value? id = some v ↔ (s.task id).phase = .ready v := by
  unfold value?
  split
  next w hw => simp [hw]
  next hne => simpa using fun h ↦ hne v h

/-- The record is only set. -/
theorem TaskOk.mono {recorded recorded' : Bool} {x : TaskRun α} (h : TaskOk g recorded id x)
    (hrecorded : recorded = true → recorded' = true) : TaskOk g recorded' id x := by
  unfold TaskOk at h ⊢
  split at h
  · exact h
  · exact h
  · exact h
  · exact ⟨h.1, h.2.1, h.2.2.1, hrecorded h.2.2.2⟩
  · exact ⟨h.1, h.2.1, h.2.2.1, h.2.2.2.1, fun e he ↦ hrecorded (h.2.2.2.2 e he)⟩
  · exact ⟨h.1, h.2.1, h.2.2.1, h.2.2.2.1, fun e he ↦ hrecorded (h.2.2.2.2 e he)⟩

theorem value?_of_runs {p : TaskPhase α} (hphase : (s.task id).phase = p) (hp : p.runs = true) :
    s.value? id = none := by
  cases hv : s.value? id with
  | none => rfl
  | some v =>
    rw [← hphase, value?_eq_some.mp hv] at hp
    cases hp

namespace Exact

variable {x : TaskRun α} {p : TaskPhase α}

/-- What a future that is ready holds, and the flag of its node. -/
theorem value (h : s.Exact g) {d : Nat} {v : Any α} (hd : d < g.nodeCount)
    (hv : s.value? d = some v) :
    v = (g.evaluate d).result ∧ (s.task d).failed = (g.evaluate d).failed := by
  have hok := h.task d hd
  rw [TaskOk, value?_eq_some.mp hv] at hok
  exact ⟨hok.1, hok.2.1⟩

/-- The futures of a pushed node's dependencies are stored. -/
theorem dependency_stored (h : s.Exact g) (hwf : g.WellFormed) (hn : g.nodeAt id = some n)
    (hpush : (s.task id).phase ≠ .unpushed) {d : Nat} (hd : d ∈ n.dependencies) :
    d ∈ s.stored := by
  rcases (h.pushed id).mp hpush with hin | ⟨rest, hmain⟩
  · obtain ⟨pre, post, hsplit⟩ := append_of_mem hin
    rw [hsplit]
    refine mem_append_left _ (hwf.schedule pre id (post ++ s.main.rest) ?_ d ⟨n, hn, hd⟩)
    rw [h.order, hsplit, append_assoc, cons_append]
  · refine hwf.schedule s.stored id rest ?_ d ⟨n, hn, hd⟩
    rw [h.order, hmain]
    rfl

/-- A future that is ready is not that of a task that goes on. -/
theorem ready_setTask (hval : s.value? id = none) {d : Nat} (hd : s.Ready d) :
    (s.setTask id x).Ready d := by
  have hne : d ≠ id := by
    rintro rfl
    rw [Ready, hval] at hd
    cases hd
  simpa only [Ready, value?, setTask, update_of_ne hne] using hd

/-- A task that is not about to write leaves the record. -/
theorem record_kept (h : s.Exact g) (hphase : (s.task id).phase = p)
    (hwriting : ∀ e, p ≠ .writing e) (hrec : s.failureRecorded = true) :
    (∃ j e, (update s.task id x j).phase = .writing e) ∨ s.NamesFailure g := by
  refine (h.record hrec).imp_left fun ⟨j, e, hj⟩ ↦ ⟨j, e, ?_⟩
  have hne : j ≠ id := fun hji ↦ hwriting e (hphase.symm.trans (hji ▸ hj))
  rw [update_of_ne hne, hj]

/-- One task goes on, and what it writes is right. -/
theorem moved (h : s.Exact g) (hn : g.nodeAt id = some n) (hphase : (s.task id).phase = p)
    (hp : p.runs = true) (hx : x.phase ≠ .unpushed) {recorded : Bool} {failedNode : Nat}
    {message : String} (hok : TaskOk g recorded id x)
    (hrec : s.failureRecorded = true → recorded = true)
    (hrecord : recorded = true → (∃ j e, (update s.task id x j).phase = .writing e) ∨
      NamesFailure g { s with failedNodeId := failedNode, failedMessage := message }) :
    Exact g { s.setTask id x with
      failureRecorded := recorded, failedNodeId := failedNode, failedMessage := message } := by
  have hother {j : Nat} (hj : j ≠ id) : update s.task id x j = s.task j := update_of_ne hj ..
  have hval := value?_of_runs hphase hp
  refine ⟨h.order, fun j ↦ ?_, fun j hj ↦ ?_, hrecord, h.nullRead, ?_⟩
  · change (update s.task id x j).phase ≠ .unpushed ↔ _
    refine Iff.trans ?_ (h.pushed j)
    by_cases hj : j = id
    · rw [hj, update_self]
      refine ⟨fun _ hu ↦ ?_, fun _ ↦ hx⟩
      rw [← hphase, hu] at hp
      cases hp
    · rw [hother hj]
  · change TaskOk g recorded j (update s.task id x j)
    by_cases hji : j = id
    · rwa [hji, update_self]
    · rw [hother hji]
      exact (h.task j hj).mono hrec
  · -- No future is outstanding once the caller reads.
    have hnot : ¬∀ id < g.nodeCount, s.Ready id := fun hall ↦ by
      have hready := hall id (List.getElem?_eq_some_iff.mp hn).1
      rw [Ready, hval] at hready
      cases hready
    have hmain := h.main
    unfold MainOk at hmain ⊢
    change match s.main with
      | .pushing _ | .storing _ _ | .waiting => True
      | .reading out => _
      | .loading out => _
      | .returned out status => _
    cases hm : s.main with
    | pushing rest | storing id rest | waiting => trivial
    | reading out | loading out | returned out status =>
      rw [hm] at hmain
      exact absurd hmain.1 hnot

/-- One task goes on, and leaves the record. -/
theorem go (h : s.Exact g) (hn : g.nodeAt id = some n) (hphase : (s.task id).phase = p)
    (hp : p.runs = true) (hwriting : ∀ e, p ≠ .writing e) (hx : x.phase ≠ .unpushed)
    (hok : TaskOk g s.failureRecorded id x) : (s.setTask id x).Exact g :=
  h.moved hn hphase hp hx hok (fun hr ↦ hr) (h.record_kept hphase hwriting)

/-- What a task reads of its priors when they are ready. -/
theorem reads (hwf : g.WellFormed) (h : s.Exact g) (hn : g.nodeAt id = some n)
    (hready : ∀ d ∈ n.dependencies, (s.value? d).isSome) :
    (n.dependencies.any fun d ↦ (s.task d).failed) =
        (n.dependencies.map g.evaluate).any NodeOutcome.failed ∧
      (n.dependencies.map fun d ↦ (s.value? d).getD none) =
        (n.dependencies.map g.evaluate).map NodeOutcome.result := by
  have hdep (d : Nat) (hd : d ∈ n.dependencies) : (s.value? d).getD none = (g.evaluate d).result ∧
      (s.task d).failed = (g.evaluate d).failed := by
    obtain ⟨v, hv⟩ := Option.isSome_iff_exists.mp (hready d hd)
    rw [hv]
    exact h.value (hwf.dependencies_lt id n hn d hd) hv
  rw [any_map, map_map]
  refine ⟨?_, map_congr_left fun d hd ↦ (hdep d hd).1⟩
  rw [any_eq, any_eq]
  exact decide_eq_decide.mpr (exists_congr fun d ↦ and_congr_right fun hd ↦
    Bool.coe_iff_coe.mpr (hdep d hd).2)

/-- A step of a task. -/
theorem stepTask (hwf : g.WellFormed) (h : s.Exact g) (hn : g.nodeAt id = some n)
    (hs : s.stepTask id n = some t) : t.Exact g := by
  have hE := hwf.evaluate_eq hn
  have hok := h.task id (List.getElem?_eq_some_iff.mp hn).1
  unfold GraphRun.stepTask at hs
  unfold TaskOk at hok
  dsimp only at hs
  cases hphase : (s.task id).phase with
  | unpushed | ready v =>
    rw [hphase] at hs
    cases hs
  | waiting =>
    simp only [hphase, Option.ite_none_right_eq_some, all_eq_true] at hs hok
    obtain ⟨hready, hs⟩ := hs
    obtain ⟨hflags, hinputs⟩ := h.reads hwf hn hready
    have hstored : n.dependencies.all (· ∈ s.stored) = true := by
      simpa using fun d ↦ h.dependency_stored hwf hn (by simp [hphase])
    rw [hflags, hinputs, hstored, Bool.not_true, Bool.or_false] at hs
    unfold DependencyGraph.Node.outcome at hE
    split at hs
    next hfailed =>
      rw [if_pos hfailed] at hE
      cases hs
      exact h.go hn hphase rfl nofun nofun (by simp [TaskOk, hE, hok.2])
    next hfailed =>
      rw [if_neg hfailed] at hE
      split at hs
      next v hwork =>
        rw [hwork] at hE
        cases hs
        exact h.go hn hphase rfl nofun nofun (by simp [TaskOk, hE, hok])
      next e hwork =>
        rw [hwork] at hE
        cases hs
        exact h.go hn hphase rfl nofun nofun ⟨hE, by rw [hok.2], rfl⟩
  | recording e =>
    rw [hphase] at hs hok
    cases hs
    obtain ⟨hE, hcalls, hfailed⟩ := hok
    cases hrec : s.failureRecorded with
    | true =>
      exact h.moved hn hphase rfl (by simp) (by simp [TaskOk, hE, hcalls, hfailed]) (fun _ ↦ rfl)
        fun _ ↦ h.record_kept hphase nofun hrec
    | false =>
      exact h.moved hn hphase rfl (by simp) ⟨hE, hcalls, hfailed, rfl⟩ (fun _ ↦ rfl)
        fun _ ↦ .inl ⟨id, e, by simp⟩
  | writing e =>
    rw [hphase] at hs hok
    cases hs
    obtain ⟨hE, hcalls, hfailed, hrec⟩ := hok
    exact h.moved hn hphase rfl (by simp)
      (by simp [TaskOk, hE, hcalls, hfailed, hrec, GraphRun.setTask]) (fun hr ↦ hr)
      fun _ ↦ .inr ⟨n, e, hn, hE, rfl⟩
  | returning v =>
    rw [hphase] at hs hok
    cases hs
    exact h.go hn hphase rfl nofun nofun hok

/-- The caller goes on, and at most stores a future. -/
theorem mainMoved (h : s.Exact g) {main : RunPhase α} {stored : List Nat}
    (horder : s.stored ++ s.main.rest = stored ++ main.rest)
    (hpushed : ∀ id, (id ∈ s.stored ∨ ∃ rest, s.main = .storing id rest) ↔
      id ∈ stored ∨ ∃ rest, main = .storing id rest)
    (hmain : MainOk g { s with main := main, stored := stored }) :
    Exact g { s with main := main, stored := stored } :=
  ⟨h.order.trans horder, fun id ↦ (h.pushed id).trans (hpushed id), h.task, h.record, h.nullRead,
    hmain⟩

/-- The caller pushes the task of the next node. -/
theorem push (hwf : g.WellFormed) (h : s.Exact g) {rest : List Nat}
    (hmain : s.main = .pushing (id :: rest)) :
    Exact g { s.setTask id { phase := .waiting } with
      main := .storing id rest
      nullRead := s.nullRead ||
        (g.nodeAt id).any fun n ↦ !n.dependencies.all (· ∈ s.stored) } := by
  have horder := h.order
  have hpushed := h.pushed
  rw [hmain] at horder
  simp only [hmain, reduceCtorEq, exists_false, or_false] at hpushed
  have hnodup : g.topologicalOrder.Nodup := hwf.order_perm.nodup_iff.mpr nodup_range
  have hnew : id ∉ s.stored := by
    rw [horder] at hnodup
    exact fun hin ↦ (nodup_append.mp hnodup).2.2 id hin id mem_cons_self rfl
  have hphase : (s.task id).phase = .unpushed := not_not.mp (mt (hpushed id).mp hnew)
  have hval : s.value? id = none := by simp [value?, hphase]
  refine ⟨horder, fun j ↦ ?_, fun j hj ↦ ?_, h.record_kept hphase nofun, ?_, trivial⟩
  · change (update s.task id { phase := .waiting } j).phase ≠ .unpushed ↔ _
    by_cases hj : j = id
    · simp [hj]
    · rw [update_of_ne hj, hpushed]
      simp [GraphRun.setTask, Ne.symm hj]
  · change TaskOk g s.failureRecorded j (update s.task id { phase := .waiting } j)
    by_cases hji : j = id
    · rw [hji, update_self]
      exact ⟨rfl, rfl⟩
    · rw [update_of_ne hji]
      exact h.task j hj
  · rw [h.nullRead]
    cases hn : g.nodeAt id with
    | none => rfl
    | some n => simpa using fun d hd ↦ hwf.schedule s.stored id rest horder d ⟨n, hn, hd⟩

/-- A step of the caller. -/
theorem stepMain (hwf : g.WellFormed) (h : s.Exact g) (hs : s.stepMain g = some t) : t.Exact g := by
  have hok := h.main
  unfold GraphRun.stepMain at hs
  unfold MainOk at hok
  cases hm : s.main with
  | pushing rest =>
    rw [hm] at hs
    cases rest with
    | nil =>
      cases hs
      exact h.mainMoved (by rw [hm]; rfl) (by simp [hm]) trivial
    | cons id rest =>
      cases hs
      exact push hwf h hm
  | storing id rest =>
    rw [hm] at hs
    cases hs
    refine h.mainMoved (by simp [hm, RunPhase.rest]) (fun j ↦ ?_) trivial
    simp [hm, eq_comm]
  | waiting =>
    simp only [hm, ite_some_iff, all_eq_true, mem_range] at hs
    obtain ⟨hready, rfl⟩ := hs
    exact h.mainMoved (by rw [hm]; rfl) (by simp [hm]) ⟨hready, Nat.zero_le _, rfl⟩
  | reading out =>
    rw [hm] at hs hok
    obtain ⟨hready, hle, hout⟩ := hok
    dsimp only at hs
    split at hs
    next hlt =>
      obtain ⟨v, hv, rfl⟩ := Option.map_eq_some_iff.mp hs
      refine h.mainMoved (by rw [hm]; rfl) (by simp [hm]) ⟨hready, ?_, ?_⟩
      · rw [length_append]
        exact hlt
      · obtain ⟨hvalue, -⟩ := h.value hlt hv
        rw [length_append, length_singleton, results, range_succ, map_append,
          ← results, ← hout, hvalue]
        rfl
    next hge =>
      cases hs
      refine h.mainMoved (by rw [hm]; rfl) (by simp [hm]) ⟨hready, ?_⟩
      rwa [Nat.le_antisymm hle (Nat.not_lt.mp hge)] at hout
  | loading out =>
    rw [hm] at hs hok
    cases hs
    exact h.mainMoved (by rw [hm]; rfl) (by simp [hm]) ⟨hok.1, hok.2, rfl⟩
  | returned out status =>
    rw [hm] at hs
    cases hs

theorem step (hwf : g.WellFormed) (h : s.Exact g) {l : RunStep} (hs : s.step g l = some t) :
    t.Exact g := by
  cases l with
  | main => exact h.stepMain hwf hs
  | task id =>
    obtain ⟨n, hn, hs⟩ := Option.bind_eq_some_iff.mp hs
    exact h.stepTask hwf hn hs

theorem of_reachable (hwf : g.WellFormed) (hs : (graphExecutor g).Reachable s) : s.Exact g := by
  refine hs.invariant (I := Exact g) ?_ fun _ _ _ h hstep ↦ h.step hwf hstep
  rintro _ rfl
  exact ⟨rfl, by simp, fun _ _ ↦ ⟨rfl, rfl⟩, nofun, rfl, trivial⟩

/-- A task whose priors are ready can go on. -/
theorem stepTask_isSome (hpush : (s.task id).phase ≠ .unpushed) (hval : ¬s.Ready id)
    (hdeps : ∀ d ∈ n.dependencies, s.Ready d) : (s.stepTask id n).isSome := by
  unfold GraphRun.stepTask
  dsimp only
  cases hphase : (s.task id).phase with
  | unpushed => exact absurd hphase hpush
  | ready v => exact absurd (by rw [Ready, value?_eq_some.mpr hphase]; rfl) hval
  | waiting =>
    dsimp only
    rw [if_pos (by simpa [Ready] using hdeps)]
    split
    · rfl
    · split <;> rfl
  | recording e | writing e | returning v => rfl

/-- Until the caller has returned, it or some task can go on. -/
theorem can_step (hwf : g.WellFormed) (h : s.Exact g)
    (hmain : ∀ out status, s.main ≠ .returned out status) : ∃ l, (s.step g l).isSome := by
  have hok := h.main
  unfold MainOk at hok
  cases hm : s.main with
  | pushing rest => exact ⟨.main, by cases rest <;> simp [GraphRun.step, GraphRun.stepMain, hm]⟩
  | storing id rest | loading out => exact ⟨.main, by simp [GraphRun.step, GraphRun.stepMain, hm]⟩
  | reading out =>
    rw [hm] at hok
    refine ⟨.main, ?_⟩
    simp only [GraphRun.step, GraphRun.stepMain, hm]
    split
    next hlt => simpa [Ready] using hok.1 _ hlt
    · rfl
  | returned out status => exact absurd hm (hmain out status)
  | waiting =>
    cases hfirst : g.topologicalOrder.find? fun id ↦ (s.value? id).isNone with
    | none =>
      refine ⟨.main, ?_⟩
      have hall : ∀ id < g.nodeCount, (s.value? id).isSome := fun id hid ↦ by
        have hnot := find?_eq_none.mp hfirst id (hwf.mem_order.mpr hid)
        simpa [Option.isSome_iff_ne_none] using hnot
      simp only [GraphRun.step, GraphRun.stepMain, hm]
      rw [if_pos (by simpa using hall)]
      rfl
    | some id =>
      -- The first node that is not ready waits for none.
      obtain ⟨hnone, pre, post, hsplit, hbefore⟩ := find?_eq_some_iff_append.mp hfirst
      have hin : id ∈ g.topologicalOrder := by simp [hsplit]
      obtain ⟨n, hn⟩ := hwf.exists_node hin
      have hstored : id ∈ s.stored := by
        rw [h.order, hm] at hin
        simpa [RunPhase.rest] using hin
      have hdeps : ∀ d ∈ n.dependencies, s.Ready d := fun d hd ↦ by
        simpa [Ready] using hbefore d (hwf.schedule pre id post hsplit d ⟨n, hn, hd⟩)
      refine ⟨.task id, ?_⟩
      rw [GraphRun.step, hn]
      exact stepTask_isSome ((h.pushed id).mpr (.inl hstored)) (by simpa [Ready] using hnone)
        hdeps

end Exact

/-- In every interleaving of the caller and the tasks a future holds what the works give one after
another; no work is called twice and no future is read before it is stored; the run can always go
on until it returns, with all these results, after calling the works that have no failed
dependency, and with the failure of a node whose own work has thrown, if there is one. -/
theorem run_evaluates_graph {b : GraphBuilder α} {out : Option (DependencyGraph α)}
    {status : GraphStatus} (hb : b.build out = (status, some g)) (hok : status.ok = true)
    (hs : (graphExecutor g).Reachable s) :
    (∀ id n, g.nodeAt id = some n → g.evaluate id = n.outcome g.evaluate) ∧
      (∀ id < g.nodeCount, ∀ v, s.value? id = some v →
        v = (g.evaluate id).result ∧ (s.task id).calls ≤ 1 ∧
          ((s.task id).calls = 0 ↔ g.evaluate id = .skipped)) ∧
      s.nullRead = false ∧
      ((∀ outResults status, s.main ≠ .returned outResults status) → ∃ l, (s.step g l).isSome) ∧
      ∀ outResults status, s.main = .returned outResults status →
        (∀ id < g.nodeCount, (s.value? id).isSome) ∧ outResults = results g g.nodeCount ∧
        (status = .success ∧ (∀ id < g.nodeCount, ∀ e, g.evaluate id ≠ .threw e) ∨
          ∃ id n e, g.nodeAt id = some n ∧ g.evaluate id = .threw e ∧
            status = .failure id (n.failureMessage e)) := by
  obtain ⟨hr, hc, rfl⟩ := GraphBuilder.build_eq_success hb hok
  have hwf := GraphBuilder.wellFormed_graph hr hc
  have h := Exact.of_reachable hwf hs
  have hdone {id : Nat} (hid : id < b.graph.nodeCount) {v : Any α} (hv : s.value? id = some v) :
      v = (b.graph.evaluate id).result ∧ (s.task id).calls ≤ 1 ∧
        ((s.task id).calls = 0 ↔ b.graph.evaluate id = .skipped) ∧
        ∀ e, b.graph.evaluate id = .threw e → s.failureRecorded = true := by
    have htask := h.task id hid
    rw [TaskOk, value?_eq_some.mp hv] at htask
    exact ⟨htask.1, htask.2.2⟩
  refine ⟨fun id n hn ↦ hwf.evaluate_eq hn, fun id hid v hv ↦ ?_, h.nullRead, h.can_step hwf,
    fun outResults status hmain ↦ ?_⟩
  · obtain ⟨hvalue, hle, hcalls, -⟩ := hdone hid hv
    exact ⟨hvalue, hle, hcalls⟩
  · have hread := h.main
    rw [MainOk, hmain] at hread
    obtain ⟨hready, hout, hstatus⟩ := hread
    refine ⟨hready, hout, ?_⟩
    cases hrec : s.failureRecorded with
    | false =>
      rw [hrec] at hstatus
      refine .inl ⟨hstatus, fun id hid e he ↦ ?_⟩
      obtain ⟨v, hv⟩ := Option.isSome_iff_exists.mp (hready id hid)
      obtain ⟨-, -, -, hthrew⟩ := hdone hid hv
      rw [hrec] at hthrew
      cases hthrew e he
    | true =>
      rw [hrec] at hstatus
      rcases h.record hrec with ⟨id, e, hwriting⟩ | ⟨n, e, hn, he, hmessage⟩
      · have hin : id ∈ s.stored := by
          simpa [hmain] using (h.pushed id).mp (by simp [hwriting])
        have hid : id < b.graph.nodeCount := by
          rw [← hwf.mem_order, h.order]
          exact mem_append_left _ hin
        obtain ⟨v, hv⟩ := Option.isSome_iff_exists.mp (hready id hid)
        cases hwriting.symm.trans (value?_eq_some.mp hv)
      · exact .inr ⟨_, n, e, hn, he, hmessage ▸ hstatus⟩

/-- Three nodes, the second of which throws, while the third depends on it. -/
def throwingBuilder : GraphBuilder Nat where
  nodes := [⟨"a", fun _ ↦ .ok (some 1)⟩, ⟨"b", fun _ ↦ .error .unknown⟩, ⟨"c", fun _ ↦ .ok none⟩]
  edges := [⟨2, 1⟩]

theorem run_evaluates_throwing : ∃ g, ∃ s : GraphRun Nat,
    throwingBuilder.build none = (.success, some g) ∧
    s.main = .returned [(0, some 1), (1, none), (2, none)]
      (.failure 1 "unknown exception in node \"b\"") ∧
    ((s.task 2).calls = 0 ↔ g.evaluate 2 = .skipped) := by
  let labels : List RunStep := replicate 7 .main ++ replicate 2 (.task 0) ++
    replicate 4 (.task 1) ++ replicate 2 (.task 2) ++ replicate 6 .main
  obtain ⟨s, hs, hmain⟩ : ∃ s : GraphRun Nat,
      labels.foldlM (fun s l ↦ s.step throwingBuilder.graph l)
        { main := .pushing throwingBuilder.graph.topologicalOrder } = some s ∧
      s.main = .returned [(0, some 1), (1, none), (2, none)]
        (.failure 1 "unknown exception in node \"b\"") := ⟨_, rfl, rfl⟩
  have hreach : (graphExecutor throwingBuilder.graph).Reachable s :=
    ⟨_, labels, rfl, .of_foldlM (fun _ _ _ h ↦ h) hs⟩
  obtain ⟨-, hvalues, -, -, hreturn⟩ :=
    run_evaluates_graph (b := throwingBuilder)
      (show throwingBuilder.build none = (.success, some throwingBuilder.graph) from rfl) rfl hreach
  obtain ⟨v, hv⟩ := Option.isSome_iff_exists.mp ((hreturn _ _ hmain).1 2 (by decide))
  exact ⟨_, s, rfl, hmain, (hvalues 2 (by decide) v hv).2.2⟩

end GraphRun

end Hisab.Graph
