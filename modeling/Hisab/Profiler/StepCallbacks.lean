import Mathlib.Algebra.Order.Ring.Rat

/-!
# The callbacks of a step

`CacheEntry` of `Library/Profiler/bespoke/common/record_function.cpp`: the callbacks of one scope
that a thread keeps, with the steps left until each sampled one runs. A callback pair that is
returned is kept with the callback it comes from. The geometric distribution and its generator are
parameters.
-/

namespace Hisab.Profiler.RecordFunctions

open List

/-- `RecordScope` (`record_function.h:19–25`). -/
inductive RecordScope
  | function
  | backwardFunction
  | userScope
  deriving DecidableEq, Repr

/-- The scopes in the order of their values. -/
def RecordScope.all : List RecordScope := [.function, .backwardFunction, .userScope]

theorem RecordScope.mem_all (scope : RecordScope) : scope ∈ all := by cases scope <;> decide

/-- `RecordFunctionCallback` (`record_function.h:115–195`), over the function pointers `F`. -/
structure RecordFunctionCallback (F : Type) where
  start_ : Option F
  end_ : Option F
  samplingProb : Rat := 1
  scopes : RecordScope → Bool := fun _ ↦ true
  needsInputs : Bool := false
  needsOutputs : Bool := false
  needsIds : Bool := false

/-- `StepCallbacks` (`record_function.h:241–262`). -/
structure StepCallbacks (F : Type) where
  callbacks : List (RecordFunctionCallback F) := []
  threadId : Nat := 0
  scope : RecordScope := .function
  needsInputs : Bool := false
  needsOutputs : Bool := false
  needsIds : Bool := false

/-- `CacheEntry` (`record_function.cpp:130–166`); tries of `-1` are those of a callback that is not
sampled. -/
structure CacheEntry (F : Type) where
  callbacks : List (RecordFunctionCallback F × Int) := []
  scope : RecordScope := .function
  activeCallbacks : StepCallbacks F := {}
  samplingCountdown : Int := 0
  stepsForThisUpdate : Int := 0

variable {F Gen : Type} (geometric : Rat → Gen → Nat × Gen)

/-- A callback that runs at every step. -/
def RecordFunctionCallback.unsampled (callback : RecordFunctionCallback F) : Bool :=
  1 ≤ callback.samplingProb

/-- `sampleTries` (`record_function.cpp:400–408`). -/
def sampleTries (p : Rat) (generator : Gen) : Int × Gen :=
  let (failures, generator) := geometric p generator
  (failures + 1, generator)

namespace CacheEntry

/-- The countdown of `rebuildActiveCallbacks`. -/
def countdown (callbacks : List (RecordFunctionCallback F × Int)) : Int :=
  callbacks.foldl
    (fun countdown i ↦ if i.2 < 0 then countdown else if i.2 = 0 then 1 else min countdown i.2)
    (2 ^ 31 - 1)

/-- `rebuildActiveCallbacks` (`record_function.cpp:361–398`). -/
def rebuildActiveCallbacks (threadId : Nat) (entry : CacheEntry F) : CacheEntry F :=
  { entry with
    activeCallbacks :=
      { callbacks := (entry.callbacks.filter fun i ↦ i.2 ≤ 0).map Prod.fst
        threadId
        scope := entry.scope
        needsInputs := entry.callbacks.any fun i ↦ i.1.needsInputs
        needsOutputs := entry.callbacks.any fun i ↦ i.1.needsOutputs
        needsIds := entry.callbacks.any fun i ↦ i.1.needsIds }
    samplingCountdown := countdown entry.callbacks
    stepsForThisUpdate := countdown entry.callbacks }

/-- The tries of new callbacks, in order. -/
def drawTries : List (RecordFunctionCallback F) → Gen → List (RecordFunctionCallback F × Int) × Gen
  | [], generator => ([], generator)
  | callback :: callbacks, generator =>
    let (tries, generator) := if callback.samplingProb < 1 then
      sampleTries geometric callback.samplingProb generator else (-1, generator)
    let (rest, generator) := drawTries callbacks generator
    ((callback, tries) :: rest, generator)

/-- `update` (`record_function.cpp:301–312`). -/
def update (threadId : Nat) (callbacks : List (RecordFunctionCallback F)) (generator : Gen)
    (entry : CacheEntry F) : CacheEntry F × Gen :=
  let (callbacks, generator) := drawTries geometric callbacks generator
  (rebuildActiveCallbacks threadId { entry with callbacks }, generator)

/-- The sampled callbacks that ran are sampled again. -/
def redrawTries : List (RecordFunctionCallback F × Int) → Gen →
    List (RecordFunctionCallback F × Int) × Gen
  | [], generator => ([], generator)
  | i :: callbacks, generator =>
    let (tries, generator) := if i.2 = 0 then
      sampleTries geometric i.1.samplingProb generator else (i.2, generator)
    let (rest, generator) := redrawTries callbacks generator
    ((i.1, tries) :: rest, generator)

/-- `getActiveCallbacksImpl` (`record_function.cpp:314–344`). -/
def getActiveCallbacksImpl (threadId : Nat) (generator : Gen) (entry : CacheEntry F) :
    CacheEntry F × Gen :=
  let entry : CacheEntry F := { entry with samplingCountdown := entry.samplingCountdown - 1 }
  if entry.samplingCountdown = 0 then
    let used := entry.callbacks.map fun i ↦
      (i.1, if 0 < i.2 then i.2 - entry.stepsForThisUpdate else i.2)
    let entry := rebuildActiveCallbacks threadId { entry with callbacks := used }
    let (callbacks, generator) := redrawTries geometric entry.callbacks generator
    ({ entry with callbacks }, generator)
  else (entry, generator)

/-! ### The callbacks that are not sampled -/

/-- The entry keeps these callbacks, and those of them that are not sampled are active. -/
structure Keeps (entry : CacheEntry F) (callbacks : List (RecordFunctionCallback F)) : Prop where
  kept : entry.callbacks.map Prod.fst = callbacks
  tries : ∀ i ∈ entry.callbacks, i.1.unsampled = true → i.2 < 0
  active : entry.activeCallbacks.callbacks.filter RecordFunctionCallback.unsampled =
    callbacks.filter RecordFunctionCallback.unsampled

variable {geometric} {threadId : Nat} {generator : Gen} {entry : CacheEntry F}
  {callbacks : List (RecordFunctionCallback F)} {kept : List (RecordFunctionCallback F × Int)}

/-- A callback that is not sampled is always in the active set. -/
theorem filter_active (h : ∀ i ∈ kept, i.1.unsampled = true → i.2 < 0) :
    ((kept.filter fun i ↦ i.2 ≤ 0).map Prod.fst).filter RecordFunctionCallback.unsampled =
      (kept.map Prod.fst).filter RecordFunctionCallback.unsampled := by
  rw [filter_map, filter_map, filter_filter]
  congr 1
  apply filter_congr
  intro i hi
  cases hu : i.1.unsampled with
  | false => simp [hu]
  | true =>
    have := h i hi hu
    simp [hu]
    omega

theorem keeps_rebuildActiveCallbacks (hmap : entry.callbacks.map Prod.fst = callbacks)
    (htries : ∀ i ∈ entry.callbacks, i.1.unsampled = true → i.2 < 0) :
    (rebuildActiveCallbacks threadId entry).Keeps callbacks where
  kept := hmap
  tries := htries
  active := by
    subst hmap
    exact filter_active htries

variable (geometric) in
theorem drawTries_map (callbacks : List (RecordFunctionCallback F)) (generator : Gen) :
    (drawTries geometric callbacks generator).1.map Prod.fst = callbacks := by
  induction callbacks generalizing generator with
  | nil => rfl
  | cons callback callbacks ih => rw [drawTries, map_cons, ih]

variable (geometric) in
theorem drawTries_tries (callbacks : List (RecordFunctionCallback F)) (generator : Gen) :
    ∀ i ∈ (drawTries geometric callbacks generator).1, i.1.unsampled = true → i.2 < 0 := by
  induction callbacks generalizing generator with
  | nil =>
    intro i hi
    cases hi
  | cons callback callbacks ih =>
    intro i hi hu
    rw [drawTries] at hi
    cases mem_cons.mp hi with
    | inl h =>
      subst h
      have hp : ¬ callback.samplingProb < 1 := not_lt.mpr (of_decide_eq_true hu)
      simp [hp]
    | inr h => exact ih _ i h hu

theorem keeps_update (callbacks : List (RecordFunctionCallback F)) (generator : Gen)
    (entry : CacheEntry F) :
    (update geometric threadId callbacks generator entry).1.Keeps callbacks :=
  keeps_rebuildActiveCallbacks (drawTries_map geometric callbacks generator)
    (drawTries_tries geometric callbacks generator)

theorem redrawTries_map (kept : List (RecordFunctionCallback F × Int)) (generator : Gen) :
    (redrawTries geometric kept generator).1.map Prod.fst = kept.map Prod.fst := by
  induction kept generalizing generator with
  | nil => rfl
  | cons i kept ih => rw [redrawTries, map_cons, map_cons, ih]

theorem redrawTries_tries (generator : Gen) (h : ∀ i ∈ kept, i.1.unsampled = true → i.2 < 0) :
    ∀ i ∈ (redrawTries geometric kept generator).1, i.1.unsampled = true → i.2 < 0 := by
  induction kept generalizing generator with
  | nil =>
    intro i hi
    cases hi
  | cons j kept ih =>
    intro i hi hu
    rw [redrawTries] at hi
    cases mem_cons.mp hi with
    | inl hij =>
      subst hij
      have hj := h j mem_cons_self hu
      have hne : ¬ j.2 = 0 := by omega
      simp only [if_neg hne]
      exact hj
    | inr hi => exact ih _ (fun k hk ↦ h k (mem_cons_of_mem j hk)) i hi hu

/-- A step keeps the callbacks, whether or not the sampled ones are drawn again. -/
theorem Keeps.getActiveCallbacksImpl (h : entry.Keeps callbacks) (threadId : Nat)
    (generator : Gen) :
    (getActiveCallbacksImpl geometric threadId generator entry).1.Keeps callbacks := by
  unfold CacheEntry.getActiveCallbacksImpl
  simp only
  split
  · have hmap : (entry.callbacks.map fun i ↦
        (i.1, if 0 < i.2 then i.2 - entry.stepsForThisUpdate else i.2)).map Prod.fst =
          callbacks := by
      rw [map_map, ← h.kept]
      rfl
    have htries : ∀ i ∈ entry.callbacks.map (fun i ↦
        (i.1, if 0 < i.2 then i.2 - entry.stepsForThisUpdate else i.2)),
          i.1.unsampled = true → i.2 < 0 := by
      intro i hi hu
      obtain ⟨j, hj, rfl⟩ := mem_map.mp hi
      have hneg := h.tries j hj hu
      have hpos : ¬ 0 < j.2 := by omega
      simp only [if_neg hpos]
      exact hneg
    have hkeeps : (rebuildActiveCallbacks threadId { entry with
        samplingCountdown := entry.samplingCountdown - 1
        callbacks := entry.callbacks.map fun i ↦
          (i.1, if 0 < i.2 then i.2 - entry.stepsForThisUpdate else i.2) }).Keeps callbacks :=
      keeps_rebuildActiveCallbacks hmap htries
    exact ⟨(redrawTries_map _ generator).trans hkeeps.kept,
      redrawTries_tries generator hkeeps.tries, hkeeps.active⟩
  · exact ⟨h.kept, h.tries, h.active⟩

end CacheEntry

end Hisab.Profiler.RecordFunctions
