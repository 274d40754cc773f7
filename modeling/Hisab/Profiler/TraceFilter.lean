import Hisab.Profiler.RecorderSessions

/-!
# The filter of a session

`g_trace_filter_bitmap` beside the recorder: `start` stores its mask before the
compare-and-exchange that decides whether it starts a session, and `stop` stores the default
whether or not it has ended one (`traceme_recorder.cpp:242–276`). The recorder takes the steps
of `traceRecorder`; the two stores are steps of their own.
-/

namespace Hisab.Profiler

open Base Function

/-- `kDefaultTraceFilter`: every event passes. -/
def kDefaultTraceFilter : UInt64 := 0xFFFFFFFFFFFFFFFF

/-- Where a call is as to the filter: a `start` with its arguments before and after its store, a
`stop` before and after its. -/
inductive FilterCall
  | absent
  | storing (level : Int) (mask : UInt64)
  | stored (level : Int) (mask : UInt64)
  | resetting
  | finished
deriving Repr, DecidableEq

/-- The recorder, `g_trace_filter_bitmap` and the calls. A ghost field has the arguments of the
`start` that has created the session that is active. -/
structure FilterState where
  recorder : SessionState := {}
  filter : UInt64 := kDefaultTraceFilter
  calls : Nat → FilterCall := fun _ ↦ .absent
  session : Option (Int × UInt64) := none

inductive FilterStep
  | register (t : Nat)
  | record (t : Nat) (event : Event)
  | exit (t : Nat)
  | start (c : Nat) (level : Int) (mask : UInt64)
  | storeFilter (c : Nat)
  | stop (c : Nat)
  | advance (c : Nat) (order : List Nat)
  | resetFilter (c : Nat)
deriving Repr, DecidableEq

namespace FilterState

variable (s : FilterState)

def setCall (c : Nat) (call : FilterCall) : FilterState := { s with calls := update s.calls c call }

/-- The session after the next step of a call. -/
def sessionAfter (c : Nat) : Option (Int × UInt64) :=
  match s.recorder.calls c, s.calls c with
  | .startCalled _, .stored level mask =>
    if s.recorder.level = kTracingDisabled then some (level, mask) else s.session
  | .stopCalled, _ => none
  | _, _ => s.session

/-- A step of the recorder that leaves the filter and the session. -/
def lift (l : SessionStep) : Option FilterState :=
  (s.recorder.step l).map fun recorder ↦ { s with recorder }

/-- One step, if it can be taken. -/
def step : FilterStep → Option FilterState
  | .register t => s.lift (.register t)
  | .record t event => s.lift (.record t event)
  | .exit t => s.lift (.exit t)
  | .start c level mask => (s.lift (.start c level)).map (·.setCall c (.storing level mask))
  | .storeFilter c =>
    match s.calls c with
    | .storing level mask => some ({ s with filter := mask }.setCall c (.stored level mask))
    | _ => none
  | .stop c => (s.lift (.stop c)).map (·.setCall c .resetting)
  | .advance c order =>
    match s.calls c with
    | .storing _ _ => none
    | _ => (s.recorder.step (.advance c order)).map fun recorder ↦
        { s with recorder, session := s.sessionAfter c }
  | .resetFilter c =>
    -- the store after `consume`, or at once where no session was active
    if s.calls c = .resetting ∧ s.recorder.calls c = .returned then
      some ({ s with filter := kDefaultTraceFilter }.setCall c .finished)
    else none

/-- While a session is active, the level and the filter are those of the `start` that has
created it; `start` raises a level below zero to zero. -/
def Faithful : Prop :=
  s.recorder.level ≠ kTracingDisabled → ∃ level mask, s.session = some (level, mask) ∧
    s.recorder.level = max level 0 ∧ s.filter = mask

/-- No store changes the filter of an active session, and a `start` that creates one finds its
mask as it has stored it. -/
def Undisturbed : FilterStep → Prop
  | .storeFilter c => s.recorder.level ≠ kTracingDisabled →
      ∀ level mask, s.calls c = .storing level mask → mask = s.filter
  | .resetFilter _ => s.recorder.level ≠ kTracingDisabled → s.filter = kDefaultTraceFilter
  | .advance c _ => s.recorder.level = kTracingDisabled → ∀ k level mask,
      s.recorder.calls c = .startCalled k → s.calls c = .stored level mask → s.filter = mask
  | _ => True

end FilterState

/-- The recorder with its filter. -/
def traceFilter : TransitionSystem FilterState FilterStep where
  init s := s = {}
  step s l t := s.step l = some t

/-! ### The steps of the recorder -/

namespace SessionState

variable {s s' : SessionState} {c : Nat} {l : SessionStep} {order : List Nat}

/-- A call has gone on: only its own stage changes, and not to where it has started from. -/
def GoesOn (c : Nat) (s s' : SessionState) : Prop :=
  ∃ call, s'.calls = update s.calls c call ∧ ∀ level, call ≠ .startCalled level

theorem clearStep_goesOn (recorders : List Nat) (left : Option Nat) :
    (s.clearStep c recorders left).level = s.level ∧ GoesOn c s (s.clearStep c recorders left) := by
  rcases recorders with _ | ⟨r, rs⟩
  · exact ⟨rfl, .returned, rfl, nofun⟩
  · rcases left with _ | _ | left <;> exact ⟨rfl, _, rfl, nofun⟩

theorem consumeStep_goesOn (events : List Stamped) (result : SessionEvents) (recorders : List Nat) :
    (s.consumeStep c events result recorders).level = s.level ∧
      GoesOn c s (s.consumeStep c events result recorders) := by
  rcases recorders with _ | ⟨r, rs⟩
  · exact ⟨rfl, .returned, rfl, nofun⟩
  · simp only [consumeStep]
    split <;> exact ⟨rfl, _, rfl, nofun⟩

/-- Only the two decisions change the level. -/
theorem advance_effect (h : s.advance c order = some s') : (s'.level = match s.calls c with
      | .startCalled level => if s.level = kTracingDisabled then level else s.level
      | .stopCalled => kTracingDisabled
      | _ => s.level) ∧ GoesOn c s s' := by
  unfold advance at h
  cases hc : s.calls c <;> rw [hc] at h <;> dsimp only at h ⊢
  case startCalled level =>
    cases h
    unfold compareExchange
    split
    · exact ⟨rfl, _, rfl, nofun⟩
    · exact ⟨rfl, _, rfl, nofun⟩
  case stopCalled =>
    cases h
    unfold exchange
    split
    · exact ⟨rfl, _, rfl, nofun⟩
    · next hlevel => exact ⟨not_not.mp hlevel, _, rfl, nofun⟩
  case clearing recorders left =>
    cases h
    exact clearStep_goesOn ..
  case consuming recorders events result =>
    cases h
    exact consumeStep_goesOn ..
  case startRecording | stopRecording =>
    split at h
    · cases h
      exact ⟨rfl, _, rfl, nofun⟩
    · cases h
  case absent | returned => cases h

/-- The steps that are not those of a call leave the level, and only `start` starts a call. -/
theorem step_effect (h : s.step l = some s') (hl : ∀ c order, l ≠ .advance c order) :
    s'.level = s.level ∧ ∀ c k, s'.calls c = .startCalled k →
      (s.calls c = .startCalled k ∧ l ≠ .stop c ∧ ∀ level, l ≠ .start c level) ∨
        ∃ level, l = .start c level ∧ k = max level 0 := by
  cases l <;> simp only [step] at h
  case advance c order => exact absurd rfl (hl c order)
  case start c level =>
    split at h
    · cases h
      refine ⟨rfl, fun c' k hk ↦ ?_⟩
      by_cases hne : c' = c
      · subst hne
        rw [logged_calls, setCall_self, ControlCall.startCalled.injEq] at hk
        refine .inr ⟨level, rfl, ?_⟩
        rw [← hk]
        split <;> omega
      · rw [logged_calls, setCall_of_ne s hne] at hk
        refine .inl ⟨hk, nofun, fun level' heq ↦ hne ?_⟩
        exact (SessionStep.start.inj heq).1.symm
    · cases h
  case stop c =>
    split at h
    · cases h
      refine ⟨rfl, fun c' k hk ↦ .inl ?_⟩
      by_cases hne : c' = c
      · subst hne
        rw [logged_calls, setCall_self] at hk
        cases hk
      · rw [logged_calls, setCall_of_ne s hne] at hk
        exact ⟨hk, fun heq ↦ hne (SessionStep.stop.inj heq).symm, nofun⟩
    · cases h
  case register t | record t event | exit t =>
    split at h
    · cases h
      exact ⟨rfl, fun _ _ hk ↦ .inl ⟨hk, nofun, nofun⟩⟩
    · cases h

end SessionState

/-! ### What a step does to the filter of the session -/

namespace FilterState

variable {s t : FilterState} {l : FilterStep} {c : Nat} {call : FilterCall}

@[simp] theorem setCall_self : (s.setCall c call).calls c = call := update_self ..

@[simp] theorem setCall_of_ne {c' : Nat} (h : c' ≠ c) : (s.setCall c call).calls c' = s.calls c' :=
  update_of_ne h ..

/-- A `start` that has not been decided has its arguments at hand, and the level of a session
is always that of the `start` that has created it. -/
structure FilterInv (s : FilterState) : Prop where
  called : ∀ c k, s.recorder.calls c = .startCalled k → ∃ level mask,
    (s.calls c = .storing level mask ∨ s.calls c = .stored level mask) ∧ k = max level 0
  level : s.recorder.level ≠ kTracingDisabled → ∃ level mask,
    s.session = some (level, mask) ∧ s.recorder.level = max level 0

theorem FilterInv.initial : FilterInv {} where
  called := nofun
  level h := absurd rfl h

/-- As the level is right, it is the filter that decides. -/
theorem FilterInv.faithful_iff (h : FilterInv s) : s.Faithful ↔
    (s.recorder.level ≠ kTracingDisabled → ∀ level mask, s.session = some (level, mask) →
      s.filter = mask) := by
  constructor
  · intro hfaithful hactive level mask hsession
    obtain ⟨level', mask', hsession', -, hfilter⟩ := hfaithful hactive
    cases hsession.symm.trans hsession'
    exact hfilter
  · intro hfilter hactive
    obtain ⟨level, mask, hsession, hlevel⟩ := h.level hactive
    exact ⟨level, mask, hsession, hlevel, hfilter hactive level mask hsession⟩

/-- A step of the recorder other than of a call leaves all that the law is about. -/
theorem FilterInv.recorded (h : FilterInv s) {k : SessionStep}
    (hstep : s.recorder.step k = some t.recorder) (hk : ∀ c order, k ≠ .advance c order)
    (hfilter : t.filter = s.filter) (hsession : t.session = s.session)
    (hcalls : ∀ c, k ≠ .stop c → (∀ level, k ≠ .start c level) → t.calls c = s.calls c)
    (hstart : ∀ c level, k = .start c level → ∃ mask, t.calls c = .storing level mask) :
    FilterInv t ∧ (t.Faithful ↔ s.Faithful) := by
  obtain ⟨hlevel, hcalled⟩ := SessionState.step_effect hstep hk
  refine ⟨⟨fun c j hj ↦ ?_, ?_⟩, ?_⟩
  · obtain ⟨hbefore, hstop, hnot⟩ | ⟨level, rfl, rfl⟩ := hcalled c j hj
    · rw [hcalls c hstop hnot]
      exact h.called c j hbefore
    · obtain ⟨mask, hmask⟩ := hstart c level rfl
      exact ⟨level, mask, .inl hmask, rfl⟩
  · rw [hlevel, hsession]
    exact h.level
  · unfold Faithful
    rw [hlevel, hsession, hfilter]

/-- A store into the filter. -/
theorem FilterInv.stores (h : FilterInv s) (mask : UInt64)
    (hrecorder : t.recorder = s.recorder) (hfilter : t.filter = mask)
    (hsession : t.session = s.session)
    (hcalls : ∀ c' k, s.recorder.calls c' = .startCalled k → ∃ level mask,
      (t.calls c' = .storing level mask ∨ t.calls c' = .stored level mask) ∧ k = max level 0) :
    FilterInv t ∧ (s.Faithful → (t.Faithful ↔
      (s.recorder.level ≠ kTracingDisabled → mask = s.filter))) := by
  have ht : FilterInv t := by
    refine ⟨?_, ?_⟩
    · rw [hrecorder]
      exact hcalls
    · rw [hrecorder, hsession]
      exact h.level
  refine ⟨ht, fun hfaithful ↦ ?_⟩
  rw [ht.faithful_iff, hrecorder, hsession, hfilter]
  refine forall_congr' fun hactive ↦ ?_
  obtain ⟨level, mask', hsession', -, hmask⟩ := hfaithful hactive
  rw [hsession', hmask]
  constructor
  · exact fun hall ↦ hall level mask' rfl
  · rintro rfl level' mask'' heq
    cases heq
    rfl

/-- The next step of a call. -/
theorem FilterInv.advance (h : FilterInv s) {order : List Nat}
    (hstep : s.recorder.advance c order = some t.recorder)
    (hstored : ∀ level mask, s.calls c ≠ .storing level mask) (hfilter : t.filter = s.filter)
    (hsession : t.session = s.sessionAfter c) (hcalls : t.calls = s.calls) :
    FilterInv t ∧ (s.Faithful → (t.Faithful ↔ s.Undisturbed (.advance c order))) := by
  obtain ⟨hlevel, call, hcall, hnot⟩ := SessionState.advance_effect hstep
  have hcalled : ∀ c' k, t.recorder.calls c' = .startCalled k → ∃ level mask,
      (t.calls c' = .storing level mask ∨ t.calls c' = .stored level mask) ∧ k = max level 0 := by
    intro c' k hk
    rw [hcall] at hk
    by_cases hne : c' = c
    · subst hne
      rw [update_self] at hk
      exact absurd hk (hnot k)
    · rw [update_of_ne hne] at hk
      rw [hcalls]
      exact h.called c' k hk
  -- Where nothing is decided, the session, its level and the filter stay.
  have hstays (hl : t.recorder.level = s.recorder.level) (hs : t.session = s.session)
      (hcond : s.Undisturbed (.advance c order)) :
      FilterInv t ∧ (s.Faithful → (t.Faithful ↔ s.Undisturbed (.advance c order))) := by
    refine ⟨⟨hcalled, by rw [hl, hs]; exact h.level⟩, fun hfaithful ↦ iff_of_true ?_ hcond⟩
    unfold Faithful
    rw [hl, hs, hfilter]
    exact hfaithful
  unfold sessionAfter at hsession
  cases hc : s.recorder.calls c <;> rw [hc] at hlevel hsession <;> dsimp only at hlevel hsession
  case startCalled k =>
    obtain ⟨level, mask, hstage, hk⟩ := h.called c k hc
    have hstage := hstage.resolve_left (hstored level mask)
    rw [hstage] at hsession
    by_cases hdisabled : s.recorder.level = kTracingDisabled
    · rw [if_pos hdisabled] at hlevel
      simp only [hdisabled] at hsession
      refine ⟨⟨hcalled, fun _ ↦ ⟨level, mask, hsession, hlevel.trans hk⟩⟩, fun _ ↦ ?_⟩
      have hactive : t.recorder.level ≠ kTracingDisabled := by
        unfold kTracingDisabled
        omega
      constructor
      · intro hfaithful _ k' level' mask' _ hstage'
        obtain ⟨level'', mask'', hsession', -, hmask⟩ := hfaithful hactive
        cases hstage.symm.trans hstage'
        cases hsession.symm.trans hsession'
        exact hfilter.symm.trans hmask
      · intro hcond _
        exact ⟨level, mask, hsession, hlevel.trans hk,
          hfilter.trans (hcond hdisabled k level mask hc hstage)⟩
    · rw [if_neg hdisabled] at hlevel
      simp only [hdisabled] at hsession
      exact hstays hlevel hsession fun hd ↦ absurd hd hdisabled
  case stopCalled =>
    refine ⟨⟨hcalled, fun hactive ↦ absurd hlevel hactive⟩, fun _ ↦ iff_of_true ?_ ?_⟩
    · exact fun hactive ↦ absurd hlevel hactive
    · intro _ k level mask hk
      cases hc.symm.trans hk
  case absent | startRecording | clearing | stopRecording | consuming | returned =>
    refine hstays hlevel hsession fun _ k level mask hk ↦ ?_
    cases hc.symm.trans hk

/-- What a recorder's own step reaches. -/
theorem lift_eq_some {k : SessionStep} (h : s.lift k = some t) :
    s.recorder.step k = some t.recorder ∧ t.filter = s.filter ∧ t.session = s.session ∧
      t.calls = s.calls := by
  obtain ⟨recorder, hstep, rfl⟩ := Option.map_eq_some_iff.mp h
  exact ⟨hstep, rfl, rfl, rfl⟩

/-- The step law: a step keeps the filter right exactly when it meets its condition. -/
theorem FilterInv.step (h : FilterInv s) (hstep : s.step l = some t) :
    FilterInv t ∧ (s.Faithful → (t.Faithful ↔ s.Undisturbed l)) := by
  have hquiet (k : SessionStep) (hl : s.lift k = some t) (hk : ∀ c order, k ≠ .advance c order)
      (hstart : ∀ c level, k ≠ .start c level) (hcond : s.Undisturbed l) :
      FilterInv t ∧ (s.Faithful → (t.Faithful ↔ s.Undisturbed l)) := by
    obtain ⟨hrec, hfilter, hsession, hcalls⟩ := lift_eq_some hl
    obtain ⟨hinv, hiff⟩ := h.recorded hrec hk hfilter hsession
      (fun c _ _ ↦ congrFun hcalls c) (fun c level heq ↦ absurd heq (hstart c level))
    exact ⟨hinv, fun hfaithful ↦ iff_of_true (hiff.mpr hfaithful) hcond⟩
  cases l with
  | register i => exact hquiet (.register i) hstep nofun nofun trivial
  | record i event => exact hquiet (.record i event) hstep nofun nofun trivial
  | exit i => exact hquiet (.exit i) hstep nofun nofun trivial
  | start c level mask =>
    obtain ⟨u, hu, rfl⟩ := Option.map_eq_some_iff.mp hstep
    obtain ⟨hrec, hfilter, hsession, hcalls⟩ := lift_eq_some hu
    obtain ⟨hinv, hiff⟩ := h.recorded (t := u.setCall c (.storing level mask)) hrec nofun hfilter
      hsession
      (fun c' _ hne ↦ by
        have hc : c' ≠ c := fun heq ↦ hne level (heq ▸ rfl)
        rw [setCall_of_ne hc, hcalls])
      (fun c' level' heq ↦ by
        cases heq
        exact ⟨mask, setCall_self⟩)
    exact ⟨hinv, fun hfaithful ↦ iff_of_true (hiff.mpr hfaithful) trivial⟩
  | stop c =>
    obtain ⟨u, hu, rfl⟩ := Option.map_eq_some_iff.mp hstep
    obtain ⟨hrec, hfilter, hsession, hcalls⟩ := lift_eq_some hu
    obtain ⟨hinv, hiff⟩ := h.recorded (t := u.setCall c .resetting) hrec nofun hfilter hsession
      (fun c' hne _ ↦ by
        have hc : c' ≠ c := fun heq ↦ hne (heq ▸ rfl)
        rw [setCall_of_ne hc, hcalls])
      nofun
    exact ⟨hinv, fun hfaithful ↦ iff_of_true (hiff.mpr hfaithful) trivial⟩
  | storeFilter c =>
    simp only [FilterState.step] at hstep
    cases hc : s.calls c <;> rw [hc] at hstep <;> try cases hstep
    next level mask =>
    obtain ⟨hinv, hiff⟩ := h.stores (t := { s with filter := mask }.setCall c (.stored level mask))
      mask rfl rfl rfl fun c' k hk ↦ by
        obtain ⟨level', mask', hstage, hlevel⟩ := h.called c' k hk
        by_cases hne : c' = c
        · subst hne
          rw [hc] at hstage
          cases hstage.resolve_right nofun
          exact ⟨level, mask, .inr setCall_self, hlevel⟩
        · exact ⟨level', mask', by rwa [setCall_of_ne hne], hlevel⟩
    refine ⟨hinv, fun hfaithful ↦ (hiff hfaithful).trans (forall_congr' fun _ ↦ ?_)⟩
    constructor
    · intro hmask level' mask' heq
      cases hc.symm.trans heq
      exact hmask
    · exact fun hall ↦ hall level mask hc
  | advance c order =>
    simp only [FilterState.step] at hstep
    split at hstep
    · cases hstep
    · next hstored =>
      obtain ⟨recorder, hrec, rfl⟩ := Option.map_eq_some_iff.mp hstep
      exact h.advance hrec hstored rfl rfl rfl
  | resetFilter c =>
    simp only [FilterState.step] at hstep
    split at hstep
    · next hguard =>
      cases hstep
      obtain ⟨hinv, hiff⟩ := h.stores (t := { s with filter := kDefaultTraceFilter }.setCall c
        .finished) kDefaultTraceFilter rfl rfl rfl fun c' k hk ↦ by
          have hne : c' ≠ c := by
            rintro rfl
            cases hguard.2.symm.trans hk
          rw [setCall_of_ne hne]
          exact h.called c' k hk
      refine ⟨hinv, fun hfaithful ↦ (hiff hfaithful).trans (forall_congr' fun _ ↦ eq_comm)⟩
    · cases hstep

/-- The runs in which the filter is always that of the session are those in which no step
disturbs it. -/
theorem faithful_iff_undisturbed (ls : List FilterStep) (t : FilterState) :
    (traceFilter.within Faithful).Run {} ls t ↔ (traceFilter.restrict Undisturbed).Run {} ls t := by
  have hruns : ∀ {s t ls}, FilterInv s → s.Faithful → ((traceFilter.within Faithful).Run s ls t ↔
        (traceFilter.restrict Undisturbed).Run s ls t) := by
    intro s t ls hinv hfaithful
    constructor
    · intro hrun
      induction hrun with
      | nil => exact .nil _
      | cons hstep _ ih =>
        obtain ⟨hinv', hiff⟩ := hinv.step hstep.1
        exact .cons ⟨hstep.1, (hiff hfaithful).mp hstep.2⟩ (ih hinv' hstep.2)
    · intro hrun
      induction hrun with
      | nil => exact .nil _
      | cons hstep _ ih =>
        obtain ⟨hinv', hiff⟩ := hinv.step hstep.1
        have hnext := (hiff hfaithful).mpr hstep.2
        exact .cons ⟨hstep.1, hnext⟩ (ih hinv' hnext)
  exact hruns .initial fun hactive ↦ absurd rfl hactive

/-- A `start` that is refused, and a `stop` that found no session to end: both leave their own
filter to the session that is active. -/
theorem refused_start_changes_filter : (¬ ∀ s, traceFilter.Reachable s → s.Faithful) ∧
      (∃ s, traceFilter.Run {} [.start 0 2 1, .storeFilter 0, .advance 0 [], .start 1 3 4,
          .storeFilter 1, .advance 1 []] s ∧
        s.recorder.calls 1 = .returned ∧ s.session = some (2, 1) ∧ s.recorder.level = 2 ∧
          s.filter = 4) ∧
      ∃ s, traceFilter.Run {} [.stop 0, .advance 0 [], .start 1 2 1, .storeFilter 1,
          .advance 1 [], .resetFilter 0] s ∧
        s.session = some (2, 1) ∧ s.recorder.level = 2 ∧ s.filter = kDefaultTraceFilter := by
  have hrefused : ∃ s, traceFilter.Run {} [.start 0 2 1, .storeFilter 0, .advance 0 [],
      .start 1 3 4, .storeFilter 1, .advance 1 []] s ∧ s.recorder.calls 1 = .returned ∧
      s.session = some (2, 1) ∧ s.recorder.level = 2 ∧ s.filter = 4 :=
    ⟨_, .of_foldlM (fun _ _ _ h ↦ h) rfl, rfl, rfl, rfl, rfl⟩
  refine ⟨fun hall ↦ ?_, hrefused, _, .of_foldlM (fun _ _ _ h ↦ h) rfl, rfl, rfl, rfl⟩
  obtain ⟨s, hrun, -, hsession, hlevel, hfilter⟩ := hrefused
  have hactive : s.recorder.level ≠ kTracingDisabled := by
    rw [hlevel]
    decide
  obtain ⟨level, mask, hsession', -, hmask⟩ := hall s ⟨{}, _, rfl, hrun⟩ hactive
  cases hsession.symm.trans hsession'
  exact absurd (hfilter.symm.trans hmask) (by decide)

end FilterState

end Hisab.Profiler
