import Mathlib

/-!
# Local scopes

`local_scope` (`common/parallel_tools_api.h:100–145`, `tools/parallel_tools.h:286–308`) over the
`std_thread` backend: the desired number of threads, the number that
`parallel_tools_impl::initialize` makes of it (`std_thread/parallel_tools_impl.cpp:54–97`), and the
nested parallelism.
-/

namespace Hisab.Parallel

/-- `std::from_chars` for an `int` in base ten: an optional sign and the digits after it; `none`
where it reports an error. -/
def fromChars (text : List Char) : Option Int :=
  let negative := text.head? == some '-'
  let digits := (if negative then text.tail else text).takeWhile Char.isDigit
  let magnitude : Nat := digits.foldl (fun n c ↦ 10 * n + (c.toNat - '0'.toNat)) 0
  let value : Int := if negative then -magnitude else magnitude
  if digits = [] then none
  else if -2 ^ 31 ≤ value ∧ value < 2 ^ 31 then some value
  else none

/-- What the platform reports, and `PARALLEL_MAX_THREADS`. -/
structure ThreadLimits where
  hardwareConcurrency : BitVec 32
  parallelMaxThreads : Option (List Char)

/-- `parallel_tools_api` over `std_thread`: `desired_number_of_thread_`,
`specified_num_threads_std` and `nested_activated_`. -/
structure ToolsApi where
  desired : Int := 0
  specified : Int := 0
  nestedActivated : Bool := true
deriving DecidableEq

/-- `config` (`tools/parallel_tools.h:286–308`). -/
structure ToolsConfig where
  maxNumberOfThreads : Int := 0
  backend : List Char := ['s', 't', 'd']
  nestedParallelism : Bool := false

/-- A call that configures the tools. -/
inductive ConfigCall
  | initializeThreads (numThreads : Int)
  | setNestedParallelism (isNested : Bool)
deriving Repr, DecidableEq

namespace ToolsApi

variable (limits : ThreadLimits)

/-- `estimated_default_number_of_threads` (`std_thread/parallel_tools_impl.cpp:110–118`). -/
def estimatedDefault : Int := limits.hardwareConcurrency.toInt

/-- `estimated_number_of_threads` (`std_thread/parallel_tools_impl.cpp:100–107`). -/
def estimate (specified : Int) : Int := if 0 < specified then specified else estimatedDefault limits

def estimatedNumberOfThreads (s : ToolsApi) : Int := estimate limits s.specified

/-- `initialize` of the backend (`std_thread/parallel_tools_impl.cpp:54–97`), from the number of
threads specified before. -/
def backendInitialize (numThreads specified : Int) : Int :=
  let (numThreads, specified) :=
    if numThreads = 0 then
      match limits.parallelMaxThreads with
      | some text => ((fromChars text).getD 0, specified)
      | none => (0, 0)
    else (numThreads, specified)
  if 0 < numThreads then min numThreads (estimatedDefault limits) else specified

/-- `refresh_number_of_thread` (`common/parallel_tools_api.cpp:120–124`). -/
def refresh (s : ToolsApi) : ToolsApi :=
  { s with specified := backendInitialize limits s.desired s.specified }

/-- `initialize` (`common/parallel_tools_api.cpp:113–117`). -/
def initializeThreads (s : ToolsApi) (numThreads : Int) : ToolsApi :=
  refresh limits { s with desired := numThreads }

/-- `get_backend` (`common/parallel_tools_api.cpp:65–78`). -/
def getBackend : List Char := ['s', 't', 'd']

/-- `set_backend` (`common/parallel_tools_api.cpp:81–110`) on a string that is handed over as a C
string. -/
def setBackend (s : ToolsApi) (type : List Char) : ToolsApi :=
  if (type.takeWhile (· ≠ '\x00')).map Char.toLower = getBackend.map Char.toLower then
    refresh limits s
  else s

def setNestedParallelism (s : ToolsApi) (isNested : Bool) : ToolsApi :=
  { s with nestedActivated := isNested }

/-- `operator<<` (`common/parallel_tools_api.h:127–134`). -/
def applyConfig (s : ToolsApi) (config : ToolsConfig) : ToolsApi :=
  let s := initializeThreads limits s config.maxNumberOfThreads
  let s := setBackend limits s config.backend
  s.setNestedParallelism config.nestedParallelism

/-- `config(API)` (`tools/parallel_tools.h:302–307`). -/
def config (s : ToolsApi) : ToolsConfig where
  maxNumberOfThreads := s.desired
  backend := getBackend
  nestedParallelism := s.nestedActivated

/-- `local_scope` (`common/parallel_tools_api.h:100–115`) with a lambda that returns or throws. -/
def localScope {ε : Type} (s : ToolsApi) (cfg : ToolsConfig) (lambda : Except ε Unit) :
    ToolsApi × Except ε Unit :=
  let oldConfig := s.config
  let s := applyConfig limits s cfg
  match lambda with
  | .error e => (applyConfig limits s oldConfig, .error e)
  | .ok () => (applyConfig limits s oldConfig, .ok ())

/-- The tools after their constructor (`common/parallel_tools_api.cpp:41–46`). -/
def constructed : ToolsApi := refresh limits {}

def run : ConfigCall → ToolsApi → ToolsApi
  | .initializeThreads numThreads, s => initializeThreads limits s numThreads
  | .setNestedParallelism isNested, s => s.setNestedParallelism isNested

/-- The tools after a sequence of calls. -/
def after (calls : List ConfigCall) : ToolsApi :=
  calls.foldl (fun s call ↦ run limits call s) (constructed limits)

/-- The number of threads that `initialize` specifies, if it does: for a positive argument, for
zero with a positive number in the environment, and for zero without one. -/
def specifies (numThreads : Int) : Option Int :=
  if numThreads = 0 then
    match limits.parallelMaxThreads with
    | some text => ((fromChars text).filter (0 < ·)).map (min · (estimatedDefault limits))
    | none => some 0
  else if 0 < numThreads then some (min numThreads (estimatedDefault limits))
  else none

/-- Both observers are as they were. -/
def Restored (s t : ToolsApi) : Prop :=
  estimatedNumberOfThreads limits t = estimatedNumberOfThreads limits s ∧
    t.nestedActivated = s.nestedActivated

variable {limits : ThreadLimits} {s : ToolsApi}

/-- An argument that specifies a number sets it, any other leaves the one before. -/
theorem backendInitialize_eq (numThreads specified : Int) :
    backendInitialize limits numThreads specified =
      (specifies limits numThreads).getD specified := by
  unfold backendInitialize specifies
  by_cases hz : numThreads = 0
  · rw [if_pos hz, if_pos hz]
    cases limits.parallelMaxThreads with
    | none => rfl
    | some text =>
      dsimp only
      cases fromChars text with
      | none => rfl
      | some k =>
        rw [Option.filter_some]
        by_cases hk : 0 < k
        · simp [hk]
        · simp [hk]
  · rw [if_neg hz]
    dsimp only
    split
    · rfl
    · rfl

/-- The effect of `initialize` on the number specified. -/
theorem specified_initializeThreads (s : ToolsApi) (numThreads : Int) :
    (initializeThreads limits s numThreads).specified =
      (specifies limits numThreads).getD s.specified :=
  backendInitialize_eq ..

/-- A second effect of the same argument changes nothing. -/
theorem setBackend_specified (s : ToolsApi) (type : List Char)
    (hs : ∀ n, specifies limits s.desired = some n → s.specified = n) :
    (setBackend limits s type).specified = s.specified := by
  rw [setBackend]
  split
  · rw [refresh, backendInitialize_eq]
    cases hn : specifies limits s.desired with
    | none => rfl
    | some n => exact (hs n hn).symm
  · rfl

/-- The fields after a configuration. -/
theorem applyConfig_specified (s : ToolsApi) (cfg : ToolsConfig) :
    (applyConfig limits s cfg).specified =
      (specifies limits cfg.maxNumberOfThreads).getD s.specified := by
  have hset := setBackend_specified
    (initializeThreads limits s cfg.maxNumberOfThreads) cfg.backend (fun n hn ↦ by
      rw [specified_initializeThreads]
      change specifies limits cfg.maxNumberOfThreads = some n at hn
      rw [hn, Option.getD_some])
  exact hset.trans (specified_initializeThreads s _)

/-- The number specified is that of the last argument, if it specifies one. -/
def Specified (limits : ThreadLimits) (s : ToolsApi) : Prop :=
  ∀ n, specifies limits s.desired = some n → s.specified = n

theorem specified_refresh (s : ToolsApi) : Specified limits (refresh limits s) := by
  intro n hn
  rw [refresh, backendInitialize_eq]
  change specifies limits s.desired = some n at hn
  rw [hn, Option.getD_some]

theorem Specified.run (h : Specified limits s) (call : ConfigCall) :
    Specified limits (run limits call s) := by
  cases call with
  | initializeThreads numThreads => exact specified_refresh _
  | setNestedParallelism isNested => exact h

/-- It is so after any calls. -/
theorem specified_after (limits : ThreadLimits) (calls : List ConfigCall) :
    Specified limits (after limits calls) := by
  have hrun : ∀ s, Specified limits s →
      Specified limits (calls.foldl (fun s call ↦ ToolsApi.run limits call s) s) := by
    induction calls with
    | nil => exact fun s hs ↦ hs
    | cons call calls ih => exact fun s hs ↦ ih _ (hs.run call)
  exact hrun _ (specified_refresh _)

/-- The state after a local scope does not depend on how its lambda ends. -/
theorem localScope_fst {ε : Type} (s : ToolsApi) (cfg : ToolsConfig) (lambda : Except ε Unit) :
    (localScope limits s cfg lambda).1 =
      applyConfig limits (applyConfig limits s cfg) s.config := by
  cases lambda with
  | error e | ok u => rfl

theorem localScope_nestedActivated {ε : Type} (s : ToolsApi) (cfg : ToolsConfig)
    (lambda : Except ε Unit) :
    (localScope limits s cfg lambda).1.nestedActivated = s.nestedActivated := by
  rw [localScope_fst]
  rfl

/-- The number specified after a local scope. -/
theorem localScope_specified {ε : Type} (s : ToolsApi) (cfg : ToolsConfig)
    (lambda : Except ε Unit) :
    (localScope limits s cfg lambda).1.specified = (specifies limits s.desired).getD
      ((specifies limits cfg.maxNumberOfThreads).getD s.specified) := by
  rw [localScope_fst, applyConfig_specified, applyConfig_specified]
  rfl

/-- After any calls, a local scope restores what it found exactly if the last argument of
`initialize` specifies a number, or the configuration specifies none, or one that is estimated
as the number before. -/
theorem localScope_restores_iff {ε : Type} (limits : ThreadLimits) (calls : List ConfigCall)
    (cfg : ToolsConfig) (lambda : Except ε Unit) :
    Restored limits (after limits calls) (localScope limits (after limits calls) cfg lambda).1 ↔
    (specifies limits (after limits calls).desired).isSome ∨
      ∀ n, specifies limits cfg.maxNumberOfThreads = some n →
        estimate limits n = estimatedNumberOfThreads limits (after limits calls) := by
  have hspecified := specified_after limits calls
  rw [Restored, and_iff_left (localScope_nestedActivated _ _ _), estimatedNumberOfThreads,
    localScope_specified]
  cases hd : specifies limits (after limits calls).desired with
  | some n =>
    refine iff_of_true ?_ (.inl rfl)
    rw [← hspecified n hd]
    rfl
  | none =>
    cases hm : specifies limits cfg.maxNumberOfThreads with
    | none => simp [estimatedNumberOfThreads]
    | some n => simp

/-- A platform with eight threads and no limit in the environment. -/
def eightThreads : ThreadLimits where
  hardwareConcurrency := 8
  parallelMaxThreads := none

/-- Three threads are specified, `initialize(-1)` leaves them so, and a scope with two threads
leaves two. -/
theorem negative_not_restored : ¬Restored eightThreads
    (after eightThreads [.initializeThreads 3, .initializeThreads (-1)])
    (localScope eightThreads (after eightThreads [.initializeThreads 3, .initializeThreads (-1)])
      { maxNumberOfThreads := 2 } (.ok () : Except Unit Unit)).1 := by
  rintro ⟨h, -⟩
  exact absurd h (by decide)

end ToolsApi
end Hisab.Parallel
