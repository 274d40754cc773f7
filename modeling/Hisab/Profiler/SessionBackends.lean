import Hisab.Profiler.SessionProtocol

/-!
# The backends of a session

A backend is started once, by the session it was made for, and it is stopped once if its start
succeeded: by `stop` of that session or when its controller is destroyed.
-/

namespace Hisab.Profiler

open Base Function List ProfilerController SessionFlags SessionsState

/-! ### The backends of the session with the lock -/

/-- Where the backend of a controller is. -/
def BackendLog.At (log : BackendLog) (c : ProfilerController) : Prop :=
  match c.state with
  | .init => log.started c.backend = false ∧ log.stops c.backend = 0
  | .start => log.started c.backend = c.status ∧ log.stops c.backend = 0
  | .stop | .collectData => log.stops c.backend = if log.started c.backend then 1 else 0

/-- The controllers of the session with the lock, and the backends of sessions before it. -/
structure BackendsOk (log : BackendLog) (backends : Nat) (profilers : List ProfilerController) :
    Prop where
  nodup : (profilers.map ProfilerController.backend).Nodup
  bound : ∀ c ∈ profilers, c.backend < backends
  controllers : ∀ c ∈ profilers, log.At c
  settled : ∀ b, b ∉ profilers.map ProfilerController.backend →
    log.stops b = if log.started b then 1 else 0
  fresh : ∀ b, backends ≤ b → log.started b = false ∧ log.stops b = 0

namespace BackendsOk

variable {log log' : BackendLog} {backends : Nat} {profilers : List ProfilerController}
  {c c' : ProfilerController}

/-- The logs differ in one backend only. -/
def AgreeOff (b : Nat) (log log' : BackendLog) : Prop :=
  ∀ k, k ≠ b → log'.started k = log.started k ∧ log'.stops k = log.stops k

theorem AgreeOff.start (ok : Bool) : AgreeOff c.backend log (c.start ok log).2 := by
  intro k hk
  rw [ProfilerController.start]
  split
  next => exact ⟨update_of_ne hk .., rfl⟩
  next => exact ⟨rfl, rfl⟩
  next => exact ⟨rfl, rfl⟩

theorem AgreeOff.stop (ok : Bool) : AgreeOff c.backend log (c.stop ok log).2 := by
  intro k hk
  rw [ProfilerController.stop]
  split
  next => exact ⟨rfl, update_of_ne hk ..⟩
  next => exact ⟨rfl, rfl⟩
  next => exact ⟨rfl, rfl⟩

theorem AgreeOff.destroy : AgreeOff c.backend log (c.destroy log) := by
  intro k hk
  rw [ProfilerController.destroy]
  split
  next => exact ⟨rfl, update_of_ne hk ..⟩
  next => exact ⟨rfl, rfl⟩

theorem AgreeOff.keeps (h : AgreeOff c.backend log log') (hne : c'.backend ≠ c.backend)
    (hat : log.At c') : log'.At c' := by
  obtain ⟨hstarted, hstops⟩ := h c'.backend hne
  rw [BackendLog.At, hstarted, hstops]
  exact hat

theorem start_backend (ok : Bool) : (c.start ok log).1.backend = c.backend := by
  rw [start]
  split <;> rfl

theorem stop_backend (ok : Bool) : (c.stop ok log).1.backend = c.backend := by
  rw [stop]
  split <;> rfl

/-- The start of a backend that was not started. -/
theorem start_at (ok : Bool) (hinit : c.state = .init) (hat : log.At c) :
    (c.start ok log).2.At (c.start ok log).1 := by
  obtain ⟨backend, state, status⟩ := c
  cases hinit
  cases status
  · exact hat
  · exact ⟨update_self .., hat.2⟩

theorem stop_at (ok : Bool) (hat : log.At c) : (c.stop ok log).2.At (c.stop ok log).1 := by
  obtain ⟨backend, state, status⟩ := c
  cases state with
  | init => exact hat
  | start =>
    obtain ⟨hstarted, hstops⟩ := hat
    cases status
    · exact hstops.trans (if_neg (Bool.eq_false_iff.mp hstarted)).symm
    · refine (update_self ..).trans ?_
      rw [hstops]
      exact (if_pos hstarted).symm
  | stop | collectData => exact hat

theorem collectData_at (ok : Bool) (hne : c.state ≠ .start) (hat : log.At c) :
    log.At (c.collectData ok) := by
  obtain ⟨backend, state, status⟩ := c
  cases state with
  | init => exact hat
  | start => exact absurd rfl hne
  | stop => cases status <;> exact hat
  | collectData => exact hat

/-- A destroyed controller leaves its backend stopped once if it was started. -/
theorem destroy_settled (hat : log.At c) : (c.destroy log).stops c.backend =
    if (c.destroy log).started c.backend then 1 else 0 := by
  obtain ⟨backend, state, status⟩ := c
  cases state with
  | init =>
    obtain ⟨hstarted, hstops⟩ := hat
    exact hstops.trans (if_neg (Bool.eq_false_iff.mp hstarted)).symm
  | start =>
    obtain ⟨hstarted, hstops⟩ := hat
    cases status
    · exact hstops.trans (if_neg (Bool.eq_false_iff.mp hstarted)).symm
    · refine (update_self ..).trans ?_
      rw [hstops]
      exact (if_pos hstarted).symm
  | stop | collectData => exact hat

/-- A controller and the log at its backend change. -/
theorem replaceAt (h : BackendsOk log backends profilers) {i : Nat} (hget : profilers[i]? = some c)
    (hbackend : c'.backend = c.backend) (hoff : AgreeOff c.backend log log') (hat : log'.At c') :
    BackendsOk log' backends (profilers.set i c') := by
  have hbi : (profilers.map backend)[i]? = some c.backend := by
    rw [getElem?_map, hget]
    rfl
  have hmap : (profilers.set i c').map backend = profilers.map backend := by
    obtain ⟨hi, heq⟩ := List.getElem?_eq_some_iff.mp hbi
    rw [map_set, hbackend, ← heq, set_getElem_self]
  have hmem : ∀ d ∈ profilers.set i c', d = c' ∨ d ∈ profilers ∧ d.backend ≠ c.backend := by
    intro d hd
    obtain ⟨j, hj⟩ := mem_iff_getElem?.mp hd
    rw [getElem?_set] at hj
    split at hj
    next =>
      split at hj <;> cases hj
      exact .inl rfl
    next hij =>
      refine .inr ⟨mem_of_getElem? hj, fun hsame ↦ hij ?_⟩
      have hi := (List.getElem?_eq_some_iff.mp hbi).1
      refine (getElem?_inj hi h.nodup).mp (hbi.trans ?_)
      rw [getElem?_map, hj, ← hsame]
      rfl
  have hc : c ∈ profilers := mem_of_getElem? hget
  have hne : ∀ b, b ∉ profilers.map backend → b ≠ c.backend :=
    fun b hb heq ↦ hb (heq ▸ mem_map_of_mem hc)
  refine ⟨hmap ▸ h.nodup, fun d hd ↦ ?_, fun d hd ↦ ?_, fun b hb ↦ ?_, fun b hb ↦ ?_⟩
  · obtain rfl | ⟨hd, -⟩ := hmem d hd
    · exact hbackend ▸ h.bound c hc
    · exact h.bound d hd
  · obtain rfl | ⟨hd, hne⟩ := hmem d hd
    · exact hat
    · exact hoff.keeps hne (h.controllers d hd)
  · rw [hmap] at hb
    rw [(hoff b (hne b hb)).1, (hoff b (hne b hb)).2]
    exact h.settled b hb
  · have hbc : b ≠ c.backend := by
      have := h.bound c hc
      omega
    rw [(hoff b hbc).1, (hoff b hbc).2]
    exact h.fresh b hb

/-- The controller at the front is destroyed. -/
theorem destroyHead (h : BackendsOk log backends (c :: profilers)) :
    BackendsOk (c.destroy log) backends profilers := by
  obtain ⟨hnotin, hnodup⟩ := nodup_cons.mp h.nodup
  have hoff : AgreeOff c.backend log (c.destroy log) := .destroy
  refine ⟨hnodup, fun d hd ↦ h.bound d (.tail _ hd), fun d hd ↦ ?_, fun b hb ↦ ?_, fun b hb ↦ ?_⟩
  · refine hoff.keeps (fun heq ↦ hnotin ?_) (h.controllers d (.tail _ hd))
    exact heq ▸ mem_map_of_mem hd
  · by_cases hbc : b = c.backend
    · subst hbc
      exact destroy_settled (h.controllers c (.head _))
    · rw [(hoff b hbc).1, (hoff b hbc).2]
      exact h.settled b fun hb' ↦ (mem_cons.mp hb').elim hbc hb
  · have hbc : b ≠ c.backend := by
      have := h.bound c (.head _)
      omega
    rw [(hoff b hbc).1, (hoff b hbc).2]
    exact h.fresh b hb

/-- The backends of a new `start`. -/
theorem create (h : BackendsOk log backends []) (more : Nat) : BackendsOk log (backends + more)
      ((List.range' backends more).map fun b ↦ { backend := b }) := by
  have hmap : ((range' backends more).map fun b ↦ ({ backend := b } : ProfilerController)).map
      backend = range' backends more := by
    rw [map_map]
    exact map_id _
  refine ⟨by rw [hmap]; exact nodup_range', fun c hc ↦ ?_, fun c hc ↦ ?_, fun b _ ↦ h.settled b (by simp),
    fun b hb ↦ h.fresh b (by omega)⟩
  · obtain ⟨b, hb, rfl⟩ := mem_map.mp hc
    have := (mem_range'_1.mp hb).2
    exact this
  · obtain ⟨b, hb, rfl⟩ := mem_map.mp hc
    exact h.fresh b (mem_range'_1.mp hb).1

end BackendsOk

/-! ### The loops over the backends -/

/-- How far the loop of a call has come. -/
def SessionCall.Progress (profilers : List ProfilerController) : SessionCall → Prop
  | .startProfilers next _ => ∀ c ∈ profilers.drop next, c.state = .init
  | .stopProfilers next _ => ∀ c ∈ profilers.take next, c.state ≠ .start
  | .collectProfilers .. => ∀ c ∈ profilers, c.state ≠ .start
  | _ => True

namespace SessionCall.Progress

variable {profilers : List ProfilerController} {c : ProfilerController} {next : Nat} {ok : Bool}

theorem stop_ne (log : BackendLog) : (c.stop ok log).1.state ≠ .start := by
  obtain ⟨backend, state, status⟩ := c
  cases state <;> cases status <;> nofun

theorem collectData_ne (hne : c.state ≠ .start) : (c.collectData ok).state ≠ .start := by
  obtain ⟨backend, state, status⟩ := c
  cases state with
  | init => nofun
  | start => exact absurd rfl hne
  | stop => cases status <;> nofun
  | collectData => nofun

theorem init_of_get (h : Progress profilers (.startProfilers next ok))
    (hget : profilers[next]? = some c) : c.state = .init := by
  refine h c (mem_of_getElem? (i := 0) ?_)
  rw [getElem?_drop]
  exact hget

theorem started (h : Progress profilers (.startProfilers next ok)) (c' : ProfilerController)
    (ok' : Bool) : Progress (profilers.set next c') (.startProfilers (next + 1) ok') := by
  intro d hd
  rw [drop_set_of_lt (by omega)] at hd
  refine h d ?_
  rw [← drop_drop] at hd
  exact mem_of_mem_drop hd

theorem stopped {destroying : Bool} (h : Progress profilers (.stopProfilers next destroying))
    {c' : ProfilerController} (hne : c'.state ≠ .start) :
    Progress (profilers.set next c') (.stopProfilers (next + 1) destroying) := by
  intro d hd
  rw [take_add_one, take_set_of_le (Nat.le_refl next), mem_append, Option.mem_toList,
    getElem?_set] at hd
  obtain hd | hd := hd
  · exact h d hd
  · rw [if_pos rfl] at hd
    split at hd <;> cases hd
    exact hne

end SessionCall.Progress

/-! ### Every step keeps track of the backends -/

/-- The backends of the session with the lock, or of nobody, are accounted for. -/
structure SessionsState.Backends (s : SessionsState) : Prop where
  free : s.sessionActive = false → BackendsOk s.log s.backends []
  held : ∀ x session, s.sessions x = some session → session.lock = true →
    BackendsOk s.log s.backends session.profilers ∧
      ∀ call, session.call = some call → call.Progress session.profilers

namespace SessionsState.Backends

variable {s : SessionsState} {x : Nat} {session session' : ProfilerSession}
  {call next : SessionCall} {disabled : Bool}

/-- No other session has the lock. -/
theorem held_of_other (hflags : s.Flags) (hx : s.sessions x = some session)
    (hlock : session.lock = true) {y : Nat} {other : ProfilerSession}
    (hy : s.sessions y = some other) (hlock' : other.lock = true) : y = x :=
  hflags.lock.unique y x ((lock_eq hy).trans hlock') ((lock_eq hx).trans hlock)

/-- A step that changes no backends. -/
theorem quiet (h : s.Backends) {currentSession : Option Nat} (hx : s.sessions x = some session)
    (hlock : session'.lock = session.lock) (hps : session'.profilers = session.profilers)
    (hprogress : session.lock = true → ∀ call, session'.call = some call →
      call.Progress session.profilers) :
    ({ s.setSession x session' with currentSession } : SessionsState).Backends where
  free := h.free
  held y other hy hlock' := by
    obtain ⟨rfl, hnew⟩ | ⟨-, hy⟩ := update_eq_some hy
    · cases hnew
      rw [hps]
      exact ⟨(h.held y session hx (hlock.symm.trans hlock')).1, hprogress (hlock.symm.trans hlock')⟩
    · exact h.held y other hy hlock'

/-- A step of the session with the lock on its backends. -/
theorem work (hflags : s.Flags) (hx : s.sessions x = some session) (hlock : session.lock = true)
    {log : BackendLog} (hok : BackendsOk log s.backends session'.profilers)
    (hprogress : ∀ call, session'.call = some call → call.Progress session'.profilers) :
    ({ s.setSession x session' with log } : SessionsState).Backends where
  free hfree := by
    have hheld := hflags.lock.held_of_holds ((lock_eq hx).trans hlock)
    exact absurd (hheld.symm.trans hfree) (by simp)
  held y other hy hlock' := by
    obtain ⟨rfl, hnew⟩ | ⟨hyx, hy⟩ := update_eq_some hy
    · cases hnew
      exact ⟨hok, hprogress⟩
    · exact absurd (held_of_other hflags hx hlock hy hlock') hyx

theorem releaseIfActive (h : s.Backends) (hflags : s.Flags) (hx : s.sessions x = some session)
    (hlock : session.lock = true) (hps : session.profilers = []) (next : Option SessionCall) :
    (s.releaseIfActive x { session with call := next }).Backends := by
  rw [SessionsState.releaseIfActive, if_pos hlock]
  refine ⟨fun _ ↦ hps ▸ (h.held x session hx hlock).1, fun y other hy hlock' ↦ ?_⟩
  obtain ⟨-, hnew⟩ | ⟨hyx, hy⟩ := update_eq_some hy
  · cases hnew
    cases hlock'
  · exact absurd (held_of_other hflags hx hlock hy hlock') hyx

theorem acquire (h : s.Backends) (hflags : s.Flags) (hx : s.sessions x = some session)
    (hlock : session.lock = false) (backends : Nat) :
    (s.acquire disabled x session backends).Backends := by
  rw [SessionsState.acquire]
  split
  next => exact h.quiet hx rfl rfl fun hheld ↦ absurd (hlock.symm.trans hheld) (by simp)
  next hfree =>
    have hfree : s.sessionActive = false := by
      simp only [Bool.or_eq_true, not_or, Bool.not_eq_true] at hfree
      exact hfree.2
    refine ⟨(fun h ↦ by cases h), fun y other hy hlock' ↦ ?_⟩
    obtain ⟨rfl, hnew⟩ | ⟨-, hy⟩ := update_eq_some hy
    · cases hnew
      refine ⟨(h.free hfree).create backends, ?_⟩
      rintro _ ⟨⟩ c hc
      obtain ⟨b, -, rfl⟩ := mem_map.mp hc
      rfl
    · have hheld := hflags.lock.held_of_holds ((lock_eq hy).trans hlock')
      exact absurd (hheld.symm.trans hfree) (by simp)

theorem resetProfilers (h : s.Backends) (hflags : s.Flags) (hx : s.sessions x = some session)
    (hcall : session.call = some call) (hprogress : ∀ profilers, call.Progress profilers)
    (hnext : ∀ profilers, next.Progress profilers) :
    (s.resetProfilers x session next).Backends := by
  rw [SessionsState.resetProfilers]
  split
  next c profilers hps =>
    have hlock : session.lock = true := by
      by_contra hne
      rw [(hflags.phase x session hx).profilers_of_unlocked (Bool.eq_false_iff.mpr hne)] at hps
      cases hps
    refine work hflags hx hlock (hps ▸ (h.held x session hx hlock).1).destroyHead ?_
    intro call' hcall'
    obtain rfl := Option.some.inj (hcall.symm.trans hcall')
    exact hprogress _
  next =>
    refine h.quiet hx rfl rfl ?_
    rintro - _ ⟨⟩
    exact hnext _

/-- The next step of a call keeps track of the backends. -/
theorem advance (h : s.Backends) (hflags : s.Flags) (hx : s.sessions x = some session)
    (hcall : session.call = some call) (ok : Bool) :
    (s.advance disabled x session ok call).Backends := by
  obtain ⟨-, hlock, -, hempty⟩ := (hflags.phase x session hx).busy call hcall
  cases call with
  | startAcquire backends => exact h.acquire hflags hx hlock backends
  | startProfilers next allOk =>
    obtain ⟨hok, hprogress⟩ := h.held x session hx hlock
    have hprogress := hprogress _ hcall
    rw [advance]
    split
    next c hget =>
      have hat := hok.controllers c (mem_of_getElem? hget)
      refine work hflags hx hlock (hok.replaceAt hget ?_ (.start ok) ?_) ?_
      · exact BackendsOk.start_backend ok
      · exact BackendsOk.start_at ok (hprogress.init_of_get hget) hat
      · rintro _ ⟨⟩
        exact hprogress.started _ _
    next =>
      refine h.quiet hx rfl rfl ?_
      rintro - _ ⟨⟩
      split <;> exact trivial
  | startReset => exact h.resetProfilers hflags hx hcall (fun _ ↦ trivial) fun _ ↦ trivial
  | startRelease => exact h.releaseIfActive hflags hx hlock (hempty rfl) _
  | startDeactivate | startPublish => exact h.quiet hx rfl rfl fun _ _ h ↦ by cases h
  | stopProfilers next destroying =>
    obtain ⟨hok, hprogress⟩ := h.held x session hx hlock
    have hprogress := hprogress _ hcall
    rw [advance]
    split
    next c hget =>
      have hat := hok.controllers c (mem_of_getElem? hget)
      refine work hflags hx hlock (hok.replaceAt hget ?_ (.stop ok) (BackendsOk.stop_at ok hat)) ?_
      · exact BackendsOk.stop_backend ok
      · rintro _ ⟨⟩
        exact hprogress.stopped (SessionCall.Progress.stop_ne _)
    next hend =>
      refine h.quiet hx rfl rfl ?_
      rintro - _ ⟨⟩ c hc
      rw [SessionCall.Progress, take_of_length_le (getElem?_eq_none_iff.mp hend)] at hprogress
      exact hprogress c hc
  | collectProfilers next destroying =>
    obtain ⟨hok, hprogress⟩ := h.held x session hx hlock
    have hprogress := hprogress _ hcall
    rw [advance]
    split
    next c hget =>
      have hc := mem_of_getElem? hget
      refine work hflags hx hlock (hok.replaceAt hget ?_ (fun _ _ ↦ ⟨rfl, rfl⟩)
        (BackendsOk.collectData_at ok (hprogress c hc) (hok.controllers c hc))) ?_
      · rw [collectData]
        split <;> rfl
      · rintro _ ⟨⟩ d hd
        obtain hd | rfl := mem_or_eq_of_mem_set hd
        · exact hprogress d hd
        · exact SessionCall.Progress.collectData_ne (hprogress c hc)
    next =>
      refine h.quiet hx rfl rfl ?_
      rintro - _ ⟨⟩
      exact trivial
  | stopReset destroying => exact h.resetProfilers hflags hx hcall (fun _ ↦ trivial) fun _ ↦ trivial
  | stopLoad destroying =>
    refine h.quiet hx rfl rfl ?_
    rintro - _ ⟨⟩
    split <;> exact trivial
  | stopStore destroying =>
    refine h.quiet hx rfl rfl ?_
    rintro - _ ⟨⟩
    exact trivial
  | stopRelease destroying => exact h.releaseIfActive hflags hx hlock (hempty rfl) _
  | cleanupReset => exact h.resetProfilers hflags hx hcall (fun _ ↦ trivial) fun _ ↦ trivial
  | cleanupRelease =>
    rw [advance, SessionsState.releaseIfActive, if_neg (by rw [hlock]; decide)]
    refine ⟨h.free, fun y other hy hlock' ↦ ?_⟩
    obtain ⟨-, hnew⟩ | ⟨-, hy⟩ := update_eq_some hy
    · cases hnew
    · exact h.held y other hy hlock'

/-- Every step keeps track of the backends. -/
theorem step {s' : SessionsState} {a : SessionsStep} (h : s.Backends) (hflags : s.Flags)
    (hs : s.Steps disabled a s') : s'.Backends := by
  cases hs with
  | refused => exact h
  | construct hx =>
    refine ⟨h.free, fun y other hy hlock' ↦ ?_⟩
    obtain ⟨-, hnew⟩ | ⟨-, hy⟩ := update_eq_some hy
    · cases hnew
      cases hlock'
    · exact h.held y other hy hlock'
  | start hx hcall hactive =>
    refine h.quiet hx rfl rfl ?_
    rintro - _ ⟨⟩
    exact trivial
  | beginStop destroying hx hcall hactive =>
    refine h.quiet hx rfl rfl ?_
    rintro - _ ⟨⟩ c hc
    cases hc
  | cleanup hx hcall hactive =>
    refine h.quiet hx rfl rfl ?_
    rintro - _ ⟨⟩
    exact trivial
  | advance ok hx hcall => exact h.advance hflags hx hcall ok

end SessionsState.Backends

/-- The flags and the backends agree in every reachable state. -/
theorem SessionsState.reachable_ok {disabled : Bool} {s : SessionsState}
    (hs : (profilerSessions disabled).Reachable s) : s.Flags ∧ s.Backends := by
  refine hs.invariant (I := fun s ↦ s.Flags ∧ s.Backends) ?_ ?_
  · rintro s rfl
    refine ⟨⟨nofun, ⟨⟨nofun, ?_⟩, nofun⟩, fun x ↦ ⟨nofun, nofun⟩⟩, ⟨fun _ ↦ ?_, nofun⟩⟩
    · rintro ⟨x, hx⟩
      cases hx
    · exact ⟨.nil, nofun, nofun, fun _ _ ↦ rfl, fun _ _ ↦ ⟨rfl, rfl⟩⟩
  · rintro s a s' ⟨hflags, hbackends⟩ hstep
    have hsteps := steps_of_step hstep
    exact ⟨hflags.step hsteps, hbackends.step hflags hsteps⟩

end Hisab.Profiler
