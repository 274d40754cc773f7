import Hisab.Profiler.StepCallbackRuns

/-!
# A record function and its callbacks

`RecordFunction` of `record_function.cpp`, from the callbacks of its step to its destruction. What
the callbacks do, and whether they throw, is a parameter: they act on a world of their own.
-/

namespace Hisab.Profiler.RecordFunctions

open Base

variable {F Gen Ctx World Exn : Type}

/-- `RecordFunction`, as far as its callbacks are concerned; `endsRun` are the end callbacks that
have been called, which the source does not record. -/
structure RecordFunction (F Ctx : Type) where
  callbacks : List (RecordFunctionCallback F)
  ctx : List (Option Ctx)
  calledStartCallbacks : Bool := false
  endsRun : List F := []

namespace RecordFunction

variable (start : F → World → Except Exn Ctx × World)
  (stop : F → Option Ctx → World → Except Exn Unit × World)

/-- `tryRunCallback</*is_start=*/true>` (`record_function.cpp:561–591`): what is thrown is caught,
and the context stays. -/
def tryRunStart (callback : RecordFunctionCallback F) (ctx : Option Ctx) (world : World) :
    Option Ctx × World :=
  match callback.start_ with
  | none => (ctx, world)
  | some f =>
    match start f world with
    | (.ok ctx, world) => (some ctx, world)
    | (.error _, world) => (ctx, world)

/-- `tryRunCallback</*is_start=*/false>`, with the callback that was called. -/
def tryRunEnd (callback : RecordFunctionCallback F) (ctx : Option Ctx) (world : World) :
    List F × World :=
  match callback.end_ with
  | none => ([], world)
  | some f => ([f], (stop f ctx world).2)

/-- The constructor (`record_function.cpp:597–605`). -/
def construct (result : StepCallbacks F) : RecordFunction F Ctx where
  callbacks := result.callbacks
  ctx := result.callbacks.map fun _ ↦ none

/-- The loop of `runStartCallbacks`. -/
def runStarts : List (RecordFunctionCallback F) → List (Option Ctx) → World →
    List (Option Ctx) × World
  | callback :: callbacks, ctx :: ctxs, world =>
    let (ctx, world) := tryRunStart start callback ctx world
    let (ctxs, world) := runStarts callbacks ctxs world
    (ctx :: ctxs, world)
  | _, ctxs, world => (ctxs, world)

/-- `runStartCallbacks` (`record_function.cpp:607–614`), which `before` calls. -/
def runStartCallbacks (rf : RecordFunction F Ctx) (world : World) : RecordFunction F Ctx × World :=
  let (ctx, world) := runStarts start rf.callbacks rf.ctx world
  ({ rf with ctx, calledStartCallbacks := true }, world)

/-- The loop of `end`, with the callbacks that were called. -/
def runEnds : List (RecordFunctionCallback F) → List (Option Ctx) → World → List F × World
  | [], _, world => ([], world)
  | callback :: callbacks, ctxs, world =>
    let (run, world) := tryRunEnd stop callback ctxs.head?.join world
    let (rest, world) := runEnds callbacks ctxs.tail world
    (run ++ rest, world)

/-- `end` (`record_function.cpp:616–626`), which the destructor calls. -/
def end_ (rf : RecordFunction F Ctx) (world : World) : RecordFunction F Ctx × World :=
  if rf.calledStartCallbacks then
    let (run, world) := runEnds stop rf.callbacks rf.ctx world
    ({ rf with callbacks := [], endsRun := rf.endsRun ++ run }, world)
  else (rf, world)

/-- What its owner can call before the destruction. -/
inductive Method
  | before
  | end_

/-- The calls of the owner, and then the destructor. -/
def live (rf : RecordFunction F Ctx) (world : World) : List Method → RecordFunction F Ctx × World
  | [] => rf.end_ stop world
  | .before :: methods =>
    let (rf, world) := rf.runStartCallbacks start world
    live rf world methods
  | .end_ :: methods =>
    let (rf, world) := rf.end_ stop world
    live rf world methods

/-- The end callbacks that have been called are none, or those of all callbacks, which are then
gone. -/
def EndsOnce (callbacks : List (RecordFunctionCallback F)) (rf : RecordFunction F Ctx) : Prop :=
  rf.callbacks = callbacks ∧ rf.endsRun = [] ∨ rf.calledStartCallbacks = true ∧ rf.callbacks = [] ∧
      rf.endsRun = callbacks.filterMap RecordFunctionCallback.end_

variable {start stop} {callbacks : List (RecordFunctionCallback F)} {rf : RecordFunction F Ctx}

/-- Every end callback is called, whether or not those before it throw. -/
theorem runEnds_fst (callbacks : List (RecordFunctionCallback F)) (ctxs : List (Option Ctx))
    (world : World) :
    (runEnds stop callbacks ctxs world).1 = callbacks.filterMap RecordFunctionCallback.end_ := by
  induction callbacks generalizing ctxs world with
  | nil => rfl
  | cons callback callbacks ih =>
    rw [runEnds]
    simp only [ih]
    cases h : callback.end_ with
    | none | some f => simp [tryRunEnd, h]

theorem EndsOnce.runStartCallbacks (h : rf.EndsOnce callbacks) (world : World) :
    (rf.runStartCallbacks start world).1.EndsOnce callbacks := by
  cases h with
  | inl h => exact .inl h
  | inr h => exact .inr ⟨rfl, h.2⟩

/-- After `end` of a function whose start callbacks were called, every end callback was. -/
theorem EndsOnce.end_ (h : rf.EndsOnce callbacks) (world : World) :
    (rf.end_ stop world).1.EndsOnce callbacks ∧
      (rf.calledStartCallbacks = true → (rf.end_ stop world).1.endsRun =
        callbacks.filterMap RecordFunctionCallback.end_) := by
  cases hcalled : rf.calledStartCallbacks with
  | false =>
    rw [RecordFunction.end_, hcalled]
    exact ⟨h, nofun⟩
  | true =>
    have hends : (rf.end_ stop world).1.endsRun =
        callbacks.filterMap RecordFunctionCallback.end_ := by
      rw [RecordFunction.end_, if_pos hcalled]
      simp only [runEnds_fst]
      cases h with
      | inl h => rw [h.1, h.2, List.nil_append]
      | inr h => rw [h.2.1, h.2.2, List.filterMap_nil, List.append_nil]
    have hnil : (rf.end_ stop world).1.callbacks = [] := by rw [RecordFunction.end_, if_pos hcalled]
    have hcalled' : (rf.end_ stop world).1.calledStartCallbacks = true := by
      rw [RecordFunction.end_, if_pos hcalled]
      exact hcalled
    exact ⟨.inr ⟨hcalled', hnil, hends⟩, fun _ ↦ hends⟩

/-- A call of `before` is never forgotten. -/
theorem end_calledStartCallbacks (world : World) :
    (rf.end_ stop world).1.calledStartCallbacks = rf.calledStartCallbacks := by
  rw [RecordFunction.end_]
  split <;> rfl

/-- Whatever its owner calls, a function whose start callbacks were called has called each end
callback once when it is gone, in order. -/
theorem EndsOnce.live (h : rf.EndsOnce callbacks) (world : World) (methods : List Method)
    (hcalled : rf.calledStartCallbacks = true ∨ .before ∈ methods) :
    (rf.live start stop world methods).1.endsRun =
      callbacks.filterMap RecordFunctionCallback.end_ := by
  induction methods generalizing rf world with
  | nil => exact (h.end_ world).2 (hcalled.resolve_right nofun)
  | cons method methods ih =>
    cases method with
    | before => exact ih (h.runStartCallbacks world) _ (.inl rfl)
    | end_ =>
      apply ih (h.end_ world).1
      rw [end_calledStartCallbacks]
      apply hcalled.imp_right
      intro hmem
      cases hmem with
      | tail _ hmem => exact hmem

end RecordFunction

/-- The state after some steps. -/
def after (ls : List (Nat × Action Nat)) : State Nat Unit :=
  (ls.foldlM (State.next (fun _ g ↦ (0, g)) ()) {}).getD {}

/-- The steps of a thread that registers a callback for all threads. -/
def registering : List (Nat × Action Nat) :=
  [(1, .call (.addGlobalCallback { start_ := some 1, end_ := some 2 })), (1, .step), (1, .step),
    (1, .step), (1, .step)]

end Hisab.Profiler.RecordFunctions
