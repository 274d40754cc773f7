import Hisab.Base.UniqueOwner
import Hisab.Base.MachineIntegers
import Hisab.Base.TransitionSystem

/-!
# The flag of a parallel scope

`is_parallel_` over calls of `parallel_for` that overlap and nest, for TBB
(`tbb/parallel_tools_impl.h:116–145`) and OpenMP (`openmp/parallel_tools_impl.h:67–95`). A step is
one access of the flag, or the end of a functor that runs inline. `compare_exchange_weak` may
fail spuriously, and a functor run by TBB may throw.
-/

namespace Hisab.Parallel

open Base Function

/-- The backends that keep the flag. -/
inductive ScopeBackend
  | tbb
  | openmp
deriving Repr, DecidableEq

/-- How far a call is: before its test of the flag, running inline, before the exchange, or in the
parallel loop with what the exchange read. -/
inductive ScopePhase
  | idle
  | testing
  | inlined
  | entering
  | running (fromParallelCode : Bool)
  | returned
deriving Repr, DecidableEq

/-- `is_parallel_`, `nested_activated_` and the calls. -/
structure ScopeFlag where
  isParallel : Bool := false
  nestedActivated : Bool := true
  call : Nat → ScopePhase := fun _ ↦ .idle

inductive ScopeStep
  | setNestedParallelism (nested : Bool)
  | call (c first last grain : Nat)
  | test (c : Nat)
  | returnInline (c : Nat)
  | exchange (c : Nat)
  | compareExchangeWeak (c : Nat) (spurious : Bool)
  | throw (c : Nat)
deriving Repr, DecidableEq

/-- The start over TBB, which always looks at the flag (`tbb/parallel_tools_impl.h:118–121`). -/
def tbbStart : ScopePhase := .testing

/-- The start over OpenMP, which never does (`openmp/parallel_tools_impl.h:69–78`). -/
def openmpStart (first last grain : Nat) : ScopePhase :=
  let n := SizeT.sub last first
  if n = 0 then .returned
  else if n ≤ grain then .inlined
  else .entering

/-- The start of a call. -/
def scopeStart : ScopeBackend → Nat → Nat → Nat → ScopePhase
  | .tbb, _, _, _ => tbbStart
  | .openmp, first, last, grain => openmpStart first last grain

namespace ScopeFlag

/-- Call `c` has come to `phase`. -/
def setCall (s : ScopeFlag) (c : Nat) (phase : ScopePhase) : ScopeFlag :=
  { s with call := update s.call c phase }

/-- `!nested_activated_ && is_parallel_` (`tbb/parallel_tools_impl.h:121`). -/
def test (s : ScopeFlag) (c : Nat) : ScopeFlag :=
  s.setCall c (if !s.nestedActivated && s.isParallel then .inlined else .entering)

/-- `is_parallel_.exchange(true)` (`tbb/parallel_tools_impl.h:129`). -/
def exchange (s : ScopeFlag) (c : Nat) : ScopeFlag :=
  { s.setCall c (.running s.isParallel) with isParallel := true }

/-- `is_parallel_.compare_exchange_weak(true_flag, from_parallel_code)`
(`tbb/parallel_tools_impl.h:142–143`). -/
def compareExchangeWeak (s : ScopeFlag) (c : Nat) (fromParallelCode spurious : Bool) : ScopeFlag :=
  { s.setCall c .returned with
    isParallel := if s.isParallel && !spurious then fromParallelCode else s.isParallel }

/-- One step; `none` when it is not enabled. -/
def step (backend : ScopeBackend) (s : ScopeFlag) : ScopeStep → Option ScopeFlag
  | .setNestedParallelism nested => some { s with nestedActivated := nested }
  | .call c first last grain =>
    if s.call c = .idle then some (s.setCall c (scopeStart backend first last grain)) else none
  | .test c => if s.call c = .testing then some (s.test c) else none
  | .returnInline c => if s.call c = .inlined then some (s.setCall c .returned) else none
  | .exchange c => if s.call c = .entering then some (s.exchange c) else none
  | .compareExchangeWeak c spurious =>
    match s.call c with
    | .running fromParallelCode => some (s.compareExchangeWeak c fromParallelCode spurious)
    | _ => none
  | .throw c =>
    match s.call c with
    | .running _ => if backend = .tbb then some (s.setCall c .returned) else none
    | _ => none

/-- The flag and its runs, from a new `parallel_tools_impl`. -/
def system (backend : ScopeBackend) : TransitionSystem ScopeFlag ScopeStep where
  init s := s = {}
  step s l t := s.step backend l = some t

/-- No call is under way. -/
def Quiescent (s : ScopeFlag) : Prop := ∀ c, s.call c = .idle ∨ s.call c = .returned

/-- The call that found the flag clear, and that has to clear it. -/
def responsible (s : ScopeFlag) (c : Nat) : Bool := s.call c == .running false

/-- The call that has to clear the flag neither fails spuriously nor throws. -/
def Clears (s : ScopeFlag) : ScopeStep → Prop
  | .compareExchangeWeak c spurious => s.responsible c = true → spurious = false
  | .throw c => s.responsible c = false
  | _ => True

variable {backend : ScopeBackend} {s s' t : ScopeFlag} {ls : List ScopeStep} {l : ScopeStep}

theorem responsible_setCall (s : ScopeFlag) (c : Nat) (phase : ScopePhase) :
    (s.setCall c phase).responsible = update s.responsible c (phase == .running false) := by
  funext d
  by_cases hd : d = c
  · subst hd
    simp [responsible, setCall]
  · simp [responsible, setCall, hd]

/-- A call that was not responsible and does not become so leaves the rest as it is. -/
theorem responsible_unchanged {c : Nat} {phase : ScopePhase} (hc : s.responsible c = false)
    (hphase : (phase == .running false) = false) :
    (s.setCall c phase).responsible = s.responsible := by
  rw [responsible_setCall, hphase, ← hc, update_eq_self]

theorem start_not_responsible (backend : ScopeBackend) (first last grain : Nat) :
    (scopeStart backend first last grain == .running false) = false := by
  cases backend with
  | tbb => rfl
  | openmp =>
    unfold scopeStart openmpStart
    dsimp only
    split
    · rfl
    · split
      · rfl
      · rfl

/-- What a step does to the flag and to the responsible call. -/
inductive Effect (s t : ScopeFlag) (l : ScopeStep) : Prop
  | none : t.isParallel = s.isParallel → t.responsible = s.responsible → s.Clears l → Effect s t l
  | acquired (c : Nat) : s.isParallel = false → t.isParallel = true →
      t.responsible = update s.responsible c true → s.Clears l → Effect s t l
  | released (c : Nat) : s.responsible c = true → t.isParallel = false →
      t.responsible = update s.responsible c false → s.Clears l → Effect s t l
  | abandoned (c : Nat) : s.responsible c = true → t.isParallel = s.isParallel →
      t.responsible = update s.responsible c false → ¬s.Clears l → Effect s t l

theorem effect_exchange {c : Nat} (hc : s.call c = .entering) :
    Effect s (s.exchange c) (.exchange c) := by
  have hr : s.responsible c = false := by simp [responsible, hc]
  cases hflag : s.isParallel with
  | false =>
    refine .acquired c hflag rfl ?_ trivial
    change (s.setCall c (.running s.isParallel)).responsible = _
    rw [responsible_setCall, hflag]
    rfl
  | true =>
    refine .none hflag.symm ?_ trivial
    exact responsible_unchanged hr (by rw [hflag]; rfl)

theorem effect_compareExchangeWeak {c : Nat} {fromParallelCode spurious : Bool}
    (hc : s.call c = .running fromParallelCode) :
    Effect s (s.compareExchangeWeak c fromParallelCode spurious) (.compareExchangeWeak c spurious) := by
  cases fromParallelCode with
  | true =>
    have hr : s.responsible c = false := by simp [responsible, hc]
    refine .none ?_ (responsible_unchanged hr rfl) ?_
    · rw [compareExchangeWeak]
      cases s.isParallel <;> cases spurious <;> rfl
    · rw [Clears, hr]
      exact nofun
  | false =>
    have hr : s.responsible c = true := by simp [responsible, hc]
    cases spurious with
    | false =>
      refine .released c hr ?_ (responsible_setCall s c .returned) (fun _ ↦ rfl)
      rw [compareExchangeWeak]
      cases s.isParallel <;> rfl
    | true =>
      refine .abandoned c hr ?_ (responsible_setCall s c .returned) (fun h ↦ ?_)
      · rw [compareExchangeWeak]
        cases s.isParallel <;> rfl
      · cases h hr

theorem effect_of_step (hs : s.step backend l = some t) : Effect s t l := by
  cases l with
  | setNestedParallelism nested =>
    cases hs
    exact .none rfl rfl trivial
  | call c first last grain =>
    rw [ScopeFlag.step] at hs
    split at hs
    · next hc =>
      cases hs
      refine .none rfl (responsible_unchanged (by simp [responsible, hc]) ?_) trivial
      exact start_not_responsible backend first last grain
    · cases hs
  | test c =>
    rw [ScopeFlag.step] at hs
    split at hs
    · next hc =>
      cases hs
      refine .none rfl (responsible_unchanged (by simp [responsible, hc]) ?_) trivial
      split
      · rfl
      · rfl
    · cases hs
  | returnInline c =>
    rw [ScopeFlag.step] at hs
    split at hs
    · next hc =>
      cases hs
      exact .none rfl (responsible_unchanged (by simp [responsible, hc]) rfl) trivial
    · cases hs
  | exchange c =>
    rw [ScopeFlag.step] at hs
    split at hs
    · next hc =>
      cases hs
      exact effect_exchange hc
    · cases hs
  | compareExchangeWeak c spurious =>
    rw [ScopeFlag.step] at hs
    split at hs
    · next hc =>
      cases hs
      exact effect_compareExchangeWeak hc
    · cases hs
  | throw c =>
    rw [ScopeFlag.step] at hs
    split at hs
    · split at hs
      · cases hs
        cases hr : s.responsible c with
        | false => exact .none rfl (responsible_unchanged hr rfl) hr
        | true =>
          refine .abandoned c hr rfl (responsible_setCall s c .returned) (fun h ↦ ?_)
          rw [Clears, hr] at h
          cases h
      · cases hs
    · cases hs

/-- A step that clears what it has to keeps the flag set exactly for the one responsible call. -/
theorem exclusive_step (h : Exclusive s.isParallel s.responsible) (hs : s.step backend l = some t)
    (hl : s.Clears l) : Exclusive t.isParallel t.responsible := by
  cases effect_of_step hs with
  | none hflag hr _ => rwa [hflag, hr]
  | acquired c hclear hflag hr _ =>
    rw [hclear] at h
    rw [hflag, hr]
    exact h.acquire c
  | released c hc hflag hr _ =>
    rw [hflag, hr]
    exact h.release hc
  | abandoned _ _ _ _ hl' => exact absurd hl hl'

/-- The flag is set, and no call will clear it. -/
structure Stuck (s : ScopeFlag) : Prop where
  set : s.isParallel = true
  nobody : ∀ c, s.responsible c = false

/-- Any other step leaves the flag behind. -/
theorem stuck_of_abandoned (h : Exclusive s.isParallel s.responsible)
    (hs : s.step backend l = some t) (hl : ¬s.Clears l) : Stuck t := by
  cases effect_of_step hs with
  | none _ _ hl' | acquired _ _ _ _ hl' | released _ _ _ _ hl' => exact absurd hl' hl
  | abandoned c hc hflag hr _ =>
    refine ⟨hflag.trans (h.held_of_holds hc), fun d ↦ ?_⟩
    rw [hr]
    exact (h.release hc).nobody d

theorem Stuck.step (h : Stuck s) (hs : s.step backend l = some t) : Stuck t := by
  cases effect_of_step hs with
  | none hflag hr _ => exact ⟨hflag.trans h.set, fun c ↦ by rw [hr, h.nobody]⟩
  | acquired _ hclear _ _ _ => exact absurd h.set (by simp [hclear])
  | released c hc _ _ _ | abandoned c hc _ _ _ => exact absurd hc (by simp [h.nobody c])

/-- A run ends with the flag set for the one responsible call if all its steps clear what they
have to, and otherwise with a flag that nobody clears. -/
theorem exclusive_or_stuck (hr : (system backend).Run s ls t)
    (h : Exclusive s.isParallel s.responsible) :
    (((system backend).restrict Clears).Run s ls t ∧ Exclusive t.isParallel t.responsible) ∨
      (¬((system backend).restrict Clears).Run s ls t ∧ Stuck t) := by
  induction hr with
  | nil s => exact .inl ⟨.nil s, h⟩
  | @cons s r t l ls hs hrest ih =>
    by_cases hl : s.Clears l
    · rcases ih (exclusive_step h hs hl) with ⟨hrun, ht⟩ | ⟨hrun, ht⟩
      · exact .inl ⟨.cons ⟨hs, hl⟩ hrun, ht⟩
      · refine .inr ⟨fun hall ↦ ?_, ht⟩
        cases hall with
        | cons hs' hrest' =>
          -- the steps are those of a function, so the run has no other second state
          have heq := hs'.1.symm.trans hs
          cases heq
          exact hrun hrest'
    · refine .inr ⟨fun hall ↦ ?_, ?_⟩
      · cases hall with
        | cons hs' _ => exact hl hs'.2
      · exact hrest.invariant (fun _ _ _ hst hs' ↦ hst.step hs') (stuck_of_abandoned h hs hl)

/-- Once no call is under way, the flag is clear exactly after the runs in which no responsible
call failed spuriously or threw. -/
theorem flag_clear_iff (backend : ScopeBackend) {ls : List ScopeStep} {s : ScopeFlag}
    (hr : (system backend).Run {} ls s) (hq : s.Quiescent) :
    s.isParallel = false ↔ ((system backend).restrict Clears).Run {} ls s := by
  have hnobody (c : Nat) : s.responsible c = false := by
    rcases hq c with hc | hc
    · simp [responsible, hc]
    · simp [responsible, hc]
  have hinit : Exclusive ({} : ScopeFlag).isParallel ({} : ScopeFlag).responsible :=
    ⟨iff_of_false (by decide) (by simp [responsible]), by simp [responsible]⟩
  rcases exclusive_or_stuck hr hinit with ⟨hall, hex⟩ | ⟨hall, hstuck⟩
  · refine iff_of_true ?_ hall
    rw [Bool.eq_false_iff]
    intro hset
    obtain ⟨c, hc⟩ := hex.iff.mp hset
    rw [hnobody] at hc
    cases hc
  · exact iff_of_false (by simp [hstuck.set]) hall

/-- Two calls that overlap; the compare-exchange of the later one fails spuriously. -/
def overlap : List ScopeStep :=
  [.call 0 0 10 1, .call 1 0 10 1, .exchange 0, .exchange 1, .compareExchangeWeak 0 false,
    .compareExchangeWeak 1 true]

/-- That failure does not matter. -/
theorem overlap_clear : ∃ s, (system .openmp).Run {} overlap s ∧ s.Quiescent ∧
    s.isParallel = false := by
  let s : ScopeFlag := (overlap.foldlM (step .openmp) {}).getD {}
  have hclears : ((system .openmp).restrict Clears).Run {} overlap s := by
    refine .cons ⟨rfl, trivial⟩ (.cons ⟨rfl, trivial⟩ (.cons ⟨rfl, trivial⟩ (.cons ⟨rfl, trivial⟩
      (.cons ⟨rfl, fun _ ↦ rfl⟩ (.cons ⟨rfl, fun h ↦ ?_⟩ (.nil s))))))
    cases h
  have hq : s.Quiescent := by
    rintro (_ | _ | c)
    · exact .inr rfl
    · exact .inr rfl
    · exact .inl rfl
  exact ⟨s, hclears.of_restrict, hq, (flag_clear_iff .openmp hclears.of_restrict hq).mpr hclears⟩

/-- One call over either backend, with a compare-exchange that fails spuriously. -/
def oneCall : ScopeBackend → List ScopeStep
  | .tbb => [.call 0 0 10 1, .test 0, .exchange 0, .compareExchangeWeak 0 true]
  | .openmp => [.call 0 0 10 1, .exchange 0, .compareExchangeWeak 0 true]

/-- It leaves the flag set. -/
theorem oneCall_stuck :
    (∃ s, (system .tbb).Run {} (oneCall .tbb) s ∧ s.Quiescent ∧ s.isParallel = true) ∧
      ∃ s, (system .openmp).Run {} (oneCall .openmp) s ∧ s.Quiescent ∧ s.isParallel = true := by
  constructor
  · refine ⟨_, .of_foldlM (fun _ _ _ h ↦ h) rfl, ?_, rfl⟩
    rintro (_ | c)
    · exact .inr rfl
    · exact .inl rfl
  · refine ⟨_, .of_foldlM (fun _ _ _ h ↦ h) rfl, ?_, rfl⟩
    rintro (_ | c)
    · exact .inr rfl
    · exact .inl rfl

end ScopeFlag
end Hisab.Parallel
