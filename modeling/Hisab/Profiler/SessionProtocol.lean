import Hisab.Base.UniqueOwner
import Hisab.Profiler.ProfilerSession

/-!
# The session protocol

In every run at most one session holds the profiler lock, the current session is the one that
was started, and each backend that was started is stopped once.
-/

namespace Hisab.Profiler

open Base Function Option SessionsState ProfilerSession

/-! ### The flags of a session -/

namespace SessionCall

/-- `active_` during the call. -/
def active : SessionCall → Bool
  | .startAcquire _ | .startProfilers .. | .startReset | .startRelease | .startDeactivate
  | .startPublish => true
  | _ => false

/-- The session holds the lock. -/
def locked : SessionCall → Bool
  | .startAcquire _ | .startDeactivate | .cleanupReset | .cleanupRelease => false
  | _ => true

/-- The session is still the current one. -/
def published : SessionCall → Bool
  | .stopProfilers .. | .collectProfilers .. | .stopReset _ | .stopLoad _ | .stopStore _ => true
  | _ => false

/-- The session has no backends. -/
def emptied : SessionCall → Bool
  | .startProfilers .. | .startReset | .startPublish | .stopProfilers .. | .collectProfilers ..
  | .stopReset _ => false
  | _ => true

theorem locked_of_published {call : SessionCall} (h : call.published = true) :
    call.locked = true := by
  cases call <;> first | rfl | cases h

theorem locked_of_not_emptied {call : SessionCall} (h : call.emptied = false) :
    call.locked = true := by
  cases call <;> first | rfl | cases h

end SessionCall

/-- The session is the current one. -/
def ProfilerSession.published (session : ProfilerSession) : Bool :=
  match session.call with
  | none => session.active
  | some call => call.published

/-- The members of a session are what the place of its call tells. -/
structure ProfilerSession.Phase (session : ProfilerSession) : Prop where
  idle : session.call = none → session.lock = session.active ∧ session.running = session.active ∧
    (session.active = false → session.profilers = [])
  busy : ∀ call, session.call = some call → session.active = call.active ∧
    session.lock = call.locked ∧ session.running = false ∧
    (call.emptied = true → session.profilers = [])

section Phase

variable {session : ProfilerSession} {call call' : SessionCall}
  {profilers : List ProfilerController}

namespace ProfilerSession.Phase

theorem published_of_call (hcall : session.call = some call) :
    session.published = call.published := by
  rw [published, hcall]

theorem lock_of_published (h : session.Phase) (hp : session.published = true) :
    session.lock = true := by
  rw [published] at hp
  split at hp
  next hcall => exact (h.idle hcall).1.trans hp
  next call hcall => exact (h.busy call hcall).2.1.trans (SessionCall.locked_of_published hp)

/-- Without the lock there are no backends. -/
theorem profilers_of_unlocked (h : session.Phase) (hlock : session.lock = false) :
    session.profilers = [] := by
  cases hcall : session.call with
  | none => exact (h.idle hcall).2.2 ((h.idle hcall).1.symm.trans hlock)
  | some call =>
    obtain ⟨-, hlocked, -, hempty⟩ := h.busy call hcall
    refine hempty ?_
    by_contra hne
    rw [hlock, SessionCall.locked_of_not_emptied (Bool.eq_false_iff.mpr hne)] at hlocked
    cases hlocked

/-- A session in a call. -/
theorem of_call (hcall : session.call = some call) (hactive : session.active = call.active)
    (hlock : session.lock = call.locked) (hrunning : session.running = false)
    (hempty : call.emptied = true → session.profilers = []) : session.Phase where
  idle hnone := by
    rw [hcall] at hnone
    cases hnone
  busy call' hcall' := by
    obtain rfl := some.inj (hcall.symm.trans hcall')
    exact ⟨hactive, hlock, hrunning, hempty⟩

/-- The call goes on without a change of the flags. -/
theorem next (h : session.Phase) (hcall : session.call = some call)
    (hactive : call'.active = call.active) (hlocked : call'.locked = call.locked)
    (hempty : call'.emptied = true → profilers = []) :
    ProfilerSession.Phase { session with profilers, call := some call' } := by
  obtain ⟨ha, hl, hr, -⟩ := h.busy call hcall
  exact of_call rfl (ha.trans hactive.symm) (hl.trans hlocked.symm) hr hempty

end ProfilerSession.Phase

end Phase

/-! ### The lock and the current session -/

/-- The sessions that hold the lock. -/
def lockHolders (sessions : Nat → Option ProfilerSession) (x : Nat) : Bool :=
  (sessions x).any ProfilerSession.lock

/-- The sessions that are the current one. -/
def currentSessions (sessions : Nat → Option ProfilerSession) (x : Nat) : Bool :=
  (sessions x).any ProfilerSession.published

/-- The global flags agree with those of the sessions. -/
structure SessionFlags (sessions : Nat → Option ProfilerSession) (sessionActive : Bool)
    (currentSession : Option Nat) : Prop where
  phase : ∀ x session, sessions x = some session → session.Phase
  lock : Exclusive sessionActive (lockHolders sessions)
  current : Named currentSession (currentSessions sessions)

namespace SessionFlags

variable {sessions : Nat → Option ProfilerSession} {sessionActive : Bool}
  {currentSession : Option Nat} {x : Nat} {session session' : ProfilerSession}

theorem any_update (p : ProfilerSession → Bool) (x : Nat) (o : Option ProfilerSession) :
    (fun y ↦ (update sessions x o y).any p) = update (fun y ↦ (sessions y).any p) x (o.any p) := by
  funext y
  by_cases hy : y = x
  · subst hy
    rw [update_self, update_self]
  · rw [update_of_ne hy, update_of_ne hy]

theorem lockHolders_update (x : Nat) (o : Option ProfilerSession) :
    lockHolders (update sessions x o) =
      update (lockHolders sessions) x (o.any ProfilerSession.lock) :=
  any_update _ x o

theorem currentSessions_update (x : Nat) (o : Option ProfilerSession) :
    currentSessions (update sessions x o) =
      update (currentSessions sessions) x (o.any ProfilerSession.published) :=
  any_update _ x o

theorem update_eq_some {o : Option ProfilerSession} {y : Nat} {other : ProfilerSession}
    (hy : update sessions x o y = some other) :
    (y = x ∧ o = some other) ∨ (y ≠ x ∧ sessions y = some other) := by
  by_cases hyx : y = x
  · subst hyx
    rw [update_self] at hy
    exact .inl ⟨rfl, hy⟩
  · rw [update_of_ne hyx] at hy
    exact .inr ⟨hyx, hy⟩

theorem phase_update (h : ∀ x session, sessions x = some session → session.Phase)
    (hphase : session'.Phase) (y : Nat) (session : ProfilerSession)
    (hy : update sessions x (some session') y = some session) : session.Phase := by
  obtain ⟨-, hnew⟩ | ⟨-, hy⟩ := update_eq_some hy
  · exact some.inj hnew ▸ hphase
  · exact h y session hy

theorem update_same {f : Nat → Bool} {b : Bool} (h : f x = b) : update f x b = f := by
  rw [← h, update_eq_self]

theorem exists_of_any {p : ProfilerSession → Bool} {o : Option ProfilerSession}
    (h : o.any p = true) : ∃ session, o = some session ∧ p session = true := by
  cases o with
  | none => cases h
  | some session => exact ⟨session, rfl, h⟩

theorem lock_eq (hx : sessions x = some session) : lockHolders sessions x = session.lock := by
  rw [lockHolders, hx]
  rfl

theorem published_eq (hx : sessions x = some session) :
    currentSessions sessions x = session.published := by
  rw [currentSessions, hx]
  rfl

/-- A session whose lock and whose place as the current one stay the same. -/
theorem quiet (h : SessionFlags sessions sessionActive currentSession)
    (hx : sessions x = some session) (hphase : session'.Phase)
    (hlock : session'.lock = session.lock) (hpublished : session'.published = session.published) :
    SessionFlags (update sessions x (some session')) sessionActive currentSession where
  phase := phase_update h.phase hphase
  lock := by
    rw [lockHolders_update, any_some, update_same ((lock_eq hx).trans hlock.symm)]
    exact h.lock
  current := by
    rw [currentSessions_update, any_some, update_same ((published_eq hx).trans hpublished.symm)]
    exact h.current

/-- A session is constructed. -/
theorem construct (h : SessionFlags sessions sessionActive currentSession)
    (hx : sessions x = none) :
    SessionFlags (update sessions x (some {})) sessionActive currentSession where
  phase := phase_update h.phase ⟨fun _ ↦ ⟨rfl, rfl, fun _ ↦ rfl⟩, nofun⟩
  lock := by
    rw [lockHolders_update, update_same (by rw [lockHolders, hx]; rfl)]
    exact h.lock
  current := by
    rw [currentSessions_update, update_same (by rw [currentSessions, hx]; rfl)]
    exact h.current

/-- A session without the lock is destroyed. -/
theorem erase (h : SessionFlags sessions sessionActive currentSession)
    (hx : sessions x = some session) (hlock : session.lock = false)
    (hpublished : session.published = false) :
    SessionFlags (update sessions x none) sessionActive currentSession where
  phase y session hy := by
    obtain ⟨-, hnew⟩ | ⟨-, hy⟩ := update_eq_some hy
    · cases hnew
    · exact h.phase y session hy
  lock := by
    rw [lockHolders_update, any_none, update_same ((lock_eq hx).trans hlock)]
    exact h.lock
  current := by
    rw [currentSessions_update, any_none, update_same ((published_eq hx).trans hpublished)]
    exact h.current

/-- A session takes the lock. -/
theorem acquire (h : SessionFlags sessions false currentSession) (hx : sessions x = some session)
    (hphase : session'.Phase) (hlock : session'.lock = true)
    (hpublished : session'.published = session.published) :
    SessionFlags (update sessions x (some session')) true currentSession where
  phase := phase_update h.phase hphase
  lock := by
    rw [lockHolders_update, any_some, hlock]
    exact h.lock.acquire x
  current := by
    rw [currentSessions_update, any_some, update_same ((published_eq hx).trans hpublished.symm)]
    exact h.current

/-- A session gives the lock back. -/
theorem release (h : SessionFlags sessions sessionActive currentSession)
    (hx : sessions x = some session) (hlocked : session.lock = true) (hphase : session'.Phase)
    (hlock : session'.lock = false) (hpublished : session'.published = session.published) :
    SessionFlags (update sessions x (some session')) false currentSession where
  phase := phase_update h.phase hphase
  lock := by
    rw [lockHolders_update, any_some, hlock]
    exact h.lock.release ((lock_eq hx).trans hlocked)
  current := by
    rw [currentSessions_update, any_some, update_same ((published_eq hx).trans hpublished.symm)]
    exact h.current

/-- The session with the lock becomes the current one. -/
theorem publish (h : SessionFlags sessions sessionActive currentSession)
    (hx : sessions x = some session) (hlocked : session.lock = true) (hphase : session'.Phase)
    (hlock : session'.lock = true) (hpublished : session'.published = true) :
    SessionFlags (update sessions x (some session')) sessionActive (some x) where
  phase := phase_update h.phase hphase
  lock := by
    rw [lockHolders_update, any_some, update_same ((lock_eq hx).trans (hlocked.trans hlock.symm))]
    exact h.lock
  current := by
    rw [currentSessions_update, any_some, hpublished]
    refine Named.set fun y hy ↦ ?_
    rw [Bool.eq_false_iff]
    intro hpub
    obtain ⟨other, hother, hpub⟩ := exists_of_any hpub
    have hlock' := (h.phase y other hother).lock_of_published hpub
    exact hy (h.lock.unique y x ((lock_eq hother).trans hlock') ((lock_eq hx).trans hlocked))

/-- The current session stops being it. -/
theorem clear (h : SessionFlags sessions sessionActive currentSession)
    (hx : sessions x = some session) (hcurrent : session.published = true)
    (hphase : session'.Phase) (hlock : session'.lock = session.lock)
    (hpublished : session'.published = false) :
    SessionFlags (update sessions x (some session')) sessionActive none where
  phase := phase_update h.phase hphase
  lock := by
    rw [lockHolders_update, any_some, update_same ((lock_eq hx).trans hlock.symm)]
    exact h.lock
  current := by
    rw [currentSessions_update, any_some, hpublished]
    have hname := (h.current x).mpr ((published_eq hx).trans hcurrent)
    exact (hname ▸ h.current).clear

end SessionFlags

/-! ### Every step keeps the flags -/

/-- The flags of a state agree. -/
def SessionsState.Flags (s : SessionsState) : Prop :=
  SessionFlags s.sessions s.sessionActive s.currentSession

namespace SessionsState.Flags

variable {s : SessionsState} {x : Nat} {session : ProfilerSession} {call next : SessionCall}
  {disabled : Bool}

open ProfilerSession

/-- A call goes on without a change of the flags. -/
theorem goesOn (h : s.Flags) (hx : s.sessions x = some session) (hcall : session.call = some call)
    (profilers : List ProfilerController) (hactive : next.active = call.active)
    (hlocked : next.locked = call.locked) (hpublished : next.published = call.published)
    (hempty : next.emptied = true → profilers = []) :
    (s.setSession x { session with profilers, call := some next }).Flags :=
  SessionFlags.quiet h hx ((h.phase x session hx).next hcall hactive hlocked hempty)
    (((h.phase x session hx).busy call hcall).2.1.symm ▸ rfl)
    (hpublished.trans (Phase.published_of_call hcall).symm)

theorem resetProfilers (h : s.Flags) (hx : s.sessions x = some session)
    (hcall : session.call = some call) (hactive : next.active = call.active)
    (hlocked : next.locked = call.locked) (hpublished : next.published = call.published) :
    (s.resetProfilers x session next).Flags := by
  rw [SessionsState.resetProfilers]
  split
  next c profilers hps =>
    have hempty : call.emptied = true → profilers = [] := by
      intro he
      rw [((h.phase x session hx).busy call hcall).2.2.2 he] at hps
      cases hps
    have hstay := h.goesOn hx hcall profilers rfl rfl rfl hempty
    rw [← hcall] at hstay
    exact hstay
  next hps => exact h.goesOn hx hcall session.profilers hactive hlocked hpublished fun _ ↦ hps

theorem acquire (h : s.Flags) (hx : s.sessions x = some session) (backends : Nat)
    (hcall : session.call = some (.startAcquire backends)) :
    (s.acquire disabled x session backends).Flags := by
  obtain ⟨hactive, -, hrunning, hempty⟩ := (h.phase x session hx).busy _ hcall
  rw [SessionsState.acquire]
  split
  next => exact h.goesOn hx hcall session.profilers rfl rfl rfl fun _ ↦ hempty rfl
  next hfree =>
    have hfree : s.sessionActive = false := by
      simp only [Bool.or_eq_true, not_or, Bool.not_eq_true] at hfree
      exact hfree.2
    rw [Flags, hfree] at h
    exact SessionFlags.acquire h hx (Phase.of_call rfl hactive rfl hrunning nofun) rfl
      (Phase.published_of_call hcall).symm

/-- The lock is given back. -/
theorem releaseIfActive (h : s.Flags) (hx : s.sessions x = some session)
    (hcall : session.call = some call) (hlocked : call.locked = true)
    (hpublished : call.published = false) (hempty : call.emptied = true)
    (next : Option SessionCall) (hnext : ∀ call', next = some call' → call'.active = call.active ∧
      call'.locked = false ∧ call'.published = false)
    (hidle : next = none → call.active = false) :
    (s.releaseIfActive x { session with call := next }).Flags := by
  obtain ⟨hactive, hlock, hrunning, hnil⟩ := (h.phase x session hx).busy _ hcall
  rw [SessionsState.releaseIfActive, if_pos (hlock.trans hlocked)]
  refine SessionFlags.release h hx (hlock.trans hlocked) ?_ rfl ?_
  · cases next with
    | none =>
      refine ⟨fun _ ↦ ⟨?_, ?_, fun _ ↦ hnil hempty⟩, nofun⟩
      · exact (hactive.trans (hidle rfl)).symm
      · exact hrunning.trans (hactive.trans (hidle rfl)).symm
    | some call' =>
      obtain ⟨ha, hl, -⟩ := hnext call' rfl
      exact Phase.of_call rfl (hactive.trans ha.symm) hl.symm hrunning fun _ ↦ hnil hempty
  · rw [Phase.published_of_call hcall, hpublished]
    cases next with
    | none => exact hactive.trans (hidle rfl)
    | some call' => exact (hnext call' rfl).2.2

/-- The next step of a call keeps the flags. -/
theorem advance (h : s.Flags) (hx : s.sessions x = some session) (hcall : session.call = some call)
    (ok : Bool) : (s.advance disabled x session ok call).Flags := by
  obtain ⟨hactive, hlock, hrunning, hempty⟩ := (h.phase x session hx).busy call hcall
  cases call with
  | startAcquire backends => exact h.acquire hx backends hcall
  | startProfilers next allOk =>
    rw [advance]
    split
    next c _ => exact h.goesOn hx hcall _ rfl rfl rfl nofun
    next =>
      cases allOk
      · exact h.goesOn hx hcall session.profilers rfl rfl rfl nofun
      · exact h.goesOn hx hcall session.profilers rfl rfl rfl nofun
  | startReset => exact h.resetProfilers hx hcall rfl rfl rfl
  | startRelease =>
    refine h.releaseIfActive hx hcall rfl rfl rfl (some .startDeactivate) ?_ nofun
    rintro _ ⟨⟩
    exact ⟨rfl, rfl, rfl⟩
  | startDeactivate =>
    refine SessionFlags.quiet h hx ⟨fun _ ↦ ⟨hlock, hrunning, fun _ ↦ hempty rfl⟩, nofun⟩ rfl ?_
    exact (Phase.published_of_call hcall).symm
  | startPublish =>
    exact SessionFlags.publish h hx hlock
      ⟨fun _ ↦ ⟨hlock.trans hactive.symm, hactive.symm, fun hf ↦ by rw [hactive] at hf; cases hf⟩,
        nofun⟩ hlock hactive
  | stopProfilers next destroying | collectProfilers next destroying =>
    rw [advance]
    split
    next c _ => exact h.goesOn hx hcall _ rfl rfl rfl nofun
    next => exact h.goesOn hx hcall session.profilers rfl rfl rfl nofun
  | stopReset destroying => exact h.resetProfilers hx hcall rfl rfl rfl
  | stopLoad destroying =>
    have hcurrent : s.currentSession = some x :=
      (h.current x).mpr ((SessionFlags.published_eq hx).trans (Phase.published_of_call hcall))
    rw [advance, if_pos hcurrent]
    exact h.goesOn hx hcall session.profilers rfl rfl rfl fun _ ↦ hempty rfl
  | stopStore destroying =>
    exact SessionFlags.clear h hx (Phase.published_of_call hcall)
      (Phase.of_call rfl hactive hlock hrunning fun _ ↦ hempty rfl) rfl rfl
  | stopRelease destroying =>
    refine h.releaseIfActive hx hcall rfl rfl rfl _ ?_ fun _ ↦ rfl
    intro call' hnext
    split at hnext <;> cases hnext
    exact ⟨rfl, rfl, rfl⟩
  | cleanupReset => exact h.resetProfilers hx hcall rfl rfl rfl
  | cleanupRelease =>
    rw [advance, SessionsState.releaseIfActive, if_neg (by rw [hlock]; nofun)]
    exact SessionFlags.erase h hx hlock (Phase.published_of_call hcall)

theorem beginStop (h : s.Flags) (hx : s.sessions x = some session) (hidle : session.call = none)
    (hactive : session.active = true) (destroying : Bool) :
    (s.beginStop x session destroying).Flags := by
  have hlock := ((h.phase x session hx).idle hidle).1.trans hactive
  refine SessionFlags.quiet h hx (Phase.of_call rfl rfl hlock rfl nofun) rfl ?_
  rw [published, published, hidle]
  exact hactive.symm

end SessionsState.Flags

/-- The session that a step is about. -/
def SessionsStep.session : SessionsStep → Nat
  | .construct x | .start x _ | .stop x | .destroy x | .advance x _ => x

/-- What a step does: it refuses, begins a call, or is the next step of one. -/
inductive SessionsState.Steps (disabled : Bool) (s : SessionsState) :
    SessionsStep → SessionsState → Prop
  | refused (a : SessionsStep) : (∀ x ok, a ≠ .advance x ok) → Steps disabled s a s
  | construct {x : Nat} : s.sessions x = none → Steps disabled s (.construct x) (s.setSession x {})
  | start {x backends : Nat} {session : ProfilerSession} : s.sessions x = some session →
      session.call = none → session.active = false → Steps disabled s (.start x backends)
        (s.setSession x { session with active := true, call := some (.startAcquire backends) })
  | beginStop {a : SessionsStep} {session : ProfilerSession} (destroying : Bool) :
      s.sessions a.session = some session → session.call = none → session.active = true →
      (∀ x ok, a ≠ .advance x ok) →
      Steps disabled s a (s.beginStop a.session session destroying)
  | cleanup {x : Nat} {session : ProfilerSession} : s.sessions x = some session →
      session.call = none → session.active = false → Steps disabled s (.destroy x)
        (s.setSession x { session with call := some .cleanupReset })
  | advance {x : Nat} {session : ProfilerSession} {call : SessionCall} (ok : Bool) :
      s.sessions x = some session → session.call = some call →
      Steps disabled s (.advance x ok) (s.advance disabled x session ok call)

theorem SessionsState.steps_of_step {disabled : Bool} {s s' : SessionsState} {a : SessionsStep}
    (hs : s.step disabled a = some s') : s.Steps disabled a s' := by
  cases a with
  | construct x =>
    simp only [step] at hs
    split at hs
    next hx =>
      cases hs
      exact .construct hx
    next => cases hs
  | start x backends =>
    obtain ⟨session, hx, hs⟩ := bind_eq_some_iff.mp hs
    split at hs
    next => cases hs
    next hcall =>
      split at hs <;> cases hs
      next => exact .refused _ nofun
      next hactive => exact .start hx (not_not.mp hcall) (Bool.eq_false_iff.mpr hactive)
  | stop x =>
    obtain ⟨session, hx, hs⟩ := bind_eq_some_iff.mp hs
    split at hs
    next => cases hs
    next hcall =>
      split at hs <;> cases hs
      next hactive => exact .beginStop false hx (not_not.mp hcall) hactive nofun
      next => exact .refused _ nofun
  | destroy x =>
    obtain ⟨session, hx, hs⟩ := bind_eq_some_iff.mp hs
    split at hs
    next => cases hs
    next hcall =>
      split at hs <;> cases hs
      next hactive => exact .beginStop true hx (not_not.mp hcall) hactive nofun
      next hactive => exact .cleanup hx (not_not.mp hcall) (Bool.eq_false_iff.mpr hactive)
  | advance x ok =>
    simp only [step, bind_eq_bind, bind_eq_some_iff] at hs
    obtain ⟨session, hx, call, hcall, hs⟩ := hs
    cases hs
    exact .advance ok hx hcall

/-- Every step keeps the flags. -/
theorem SessionsState.Flags.step {disabled : Bool} {s s' : SessionsState} {a : SessionsStep}
    (h : s.Flags) (hs : s.Steps disabled a s') : s'.Flags := by
  cases hs with
  | refused => exact h
  | construct hx => exact SessionFlags.construct h hx
  | @start x backends session hx hcall hactive =>
    obtain ⟨hlock, hrunning, hempty⟩ := (h.phase _ _ hx).idle hcall
    refine SessionFlags.quiet h hx ?_ rfl ?_
    · exact .of_call rfl rfl (hlock.trans hactive) (hrunning.trans hactive) fun _ ↦ hempty hactive
    · rw [published, published, hcall]
      exact hactive.symm
  | beginStop destroying hx hcall hactive => exact h.beginStop hx hcall hactive destroying
  | @cleanup x session hx hcall hactive =>
    obtain ⟨hlock, hrunning, hempty⟩ := (h.phase _ _ hx).idle hcall
    refine SessionFlags.quiet h hx ?_ rfl ?_
    · exact .of_call rfl hactive (hlock.trans hactive) (hrunning.trans hactive)
        fun _ ↦ hempty hactive
    · rw [published, published, hcall]
      exact hactive.symm
  | advance ok hx hcall => exact h.advance hx hcall ok

end Hisab.Profiler
