import Hisab.Profiler.SessionBackends

/-!
# Runs of profiler sessions

One session runs at a time, a session that stopped leaves the lock to the next one, and no
backend is left running. `PROFILER_DISABLE_PROFILING` refuses every start.
-/

namespace Hisab.Profiler

open Base Function List SessionFlags

/-! ### A start that has the lock -/

/-- The session runs after this many steps of its start. -/
def ProfilerSession.StartsIn (session : ProfilerSession) : Nat → Prop
  | 0 => session.call = none ∧ session.running = true
  | 1 => session.call = some .startPublish
  | left + 2 => ∃ next, session.call = some (.startProfilers next true) ∧
      session.profilers.length = next + left ∧
      ∀ c ∈ session.profilers.drop next, c.state = .init ∧ c.status = true

namespace SessionsState

variable {disabled : Bool} {s s' t : SessionsState} {x y : Nat} {session : ProfilerSession}
  {call : SessionCall} {a : SessionsStep}

theorem setSession_of_ne (hne : y ≠ x) : (s.setSession x session).sessions y = s.sessions y :=
  update_of_ne hne ..

theorem setSession_self : (s.setSession x session).sessions x = some session := update_self ..

/-- A call of a session leaves the other sessions alone. -/
theorem advance_of_ne (ok : Bool) (hne : y ≠ x) :
    (s.advance disabled x session ok call).sessions y = s.sessions y := by
  cases call <;> simp only [advance, acquire, resetProfilers, releaseIfActive]
  all_goals try split
  all_goals exact update_of_ne hne ..

/-- A step leaves the other sessions alone. -/
theorem Steps.other (h : s.Steps disabled a s') (hne : y ≠ a.session) :
    s'.sessions y = s.sessions y := by
  cases h with
  | refused => rfl
  | construct | start | beginStop | cleanup => exact setSession_of_ne hne
  | advance ok => exact advance_of_ne ok hne

variable (s disabled x) in
/-- A start that has the lock and whose next backend starts has one step less to go. -/
theorem startsIn_advance {left : Nat} (h : session.StartsIn (left + 1))
    (hcall : session.call = some call) :
    ∃ session', (s.advance disabled x session true call).sessions x = some session' ∧
      session'.StartsIn left := by
  cases left with
  | zero =>
    obtain rfl := Option.some.inj (hcall.symm.trans h)
    exact ⟨_, setSession_self, rfl, rfl⟩
  | succ left =>
    obtain ⟨next, hnext, hlength, hinit⟩ := h
    obtain rfl := Option.some.inj (hcall.symm.trans hnext)
    rw [advance]
    split
    next c hget =>
      obtain ⟨hstate, hstatus⟩ := hinit c (mem_of_getElem? (i := 0) (by
        rw [getElem?_drop]
        exact hget))
      have hlt := (List.getElem?_eq_some_iff.mp hget).1
      obtain ⟨left, rfl⟩ : ∃ k, left = k + 1 := ⟨left - 1, by omega⟩
      refine ⟨_, setSession_self, next + 1, ?_, ?_, ?_⟩
      · simp [ProfilerController.start, hstate, hstatus]
      · rw [length_set]
        omega
      · intro d hd
        rw [drop_set_of_lt (by omega), ← drop_drop] at hd
        exact hinit d (mem_of_mem_drop hd)
    next hend =>
      have hge := getElem?_eq_none_iff.mp hend
      obtain rfl : left = 0 := by omega
      exact ⟨_, setSession_self, rfl⟩

theorem startsIn_call {left : Nat} (h : session.StartsIn (left + 1)) :
    ∃ call, session.call = some call := by
  cases left with
  | zero => exact ⟨_, h⟩
  | succ left =>
    obtain ⟨next, hnext, -⟩ := h
    exact ⟨_, hnext⟩

/-- Whatever the other sessions do, a start that has the lock and whose backends start succeeds. -/
theorem startsIn_run {ls : List SessionsStep} (hrun : (profilerSessions disabled).Run s ls t)
    (hls : ∀ l ∈ ls, l.session = x → l = .advance x true) (hx : s.sessions x = some session)
    (h : session.StartsIn (ls.countP fun l ↦ decide (l.session = x))) :
    ∃ session', t.sessions x = some session' ∧ session'.call = none ∧ session'.running = true := by
  induction hrun generalizing session with
  | nil => exact ⟨session, hx, h⟩
  | @cons s r t l ls hstep _ ih =>
    have hls' : ∀ l ∈ ls, l.session = x → l = .advance x true := fun k hk ↦ hls k (.tail _ hk)
    have hsteps := steps_of_step hstep
    by_cases hl : l.session = x
    · rw [countP_cons_of_pos (by simpa using hl)] at h
      obtain rfl := hls l (.head _) hl
      cases hsteps with
      | refused _ hne | beginStop _ _ _ _ hne => exact absurd rfl (hne x true)
      | advance _ hx' hcall =>
        obtain rfl := Option.some.inj (hx.symm.trans hx')
        obtain ⟨session', hx', h'⟩ := startsIn_advance disabled s x h hcall
        exact ih hls' hx' h'
    · rw [countP_cons_of_neg (by simpa using hl)] at h
      exact ih hls' ((hsteps.other (Ne.symm hl)).trans hx) h

/-- The steps of such a start are there to take. -/
theorem exists_startsIn_run {left : Nat} (hx : s.sessions x = some session)
    (h : session.StartsIn left) :
    ∃ t, (profilerSessions disabled).Run s (List.replicate left (.advance x true)) t := by
  induction left generalizing s session with
  | zero => exact ⟨s, .nil s⟩
  | succ left ih =>
    obtain ⟨call, hcall⟩ := startsIn_call h
    obtain ⟨session', hx', h'⟩ := startsIn_advance disabled s x h hcall
    obtain ⟨t, ht⟩ := ih hx' h'
    refine ⟨t, .cons ?_ ht⟩
    simp [profilerSessions, step, hx, hcall]

/-- A start of the session takes the lock, and then it succeeds if its backends start, whatever
the other sessions do meanwhile. -/
def CanStart (disabled : Bool) (s : SessionsState) (x : Nat) : Prop :=
  ∀ backends ok, ∃ t, (profilerSessions disabled).Run s [.start x backends, .advance x ok] t ∧
    (∃ r, (profilerSessions disabled).Run t (List.replicate (backends + 2) (.advance x true)) r) ∧
    ∀ ls r, (profilerSessions disabled).Run t ls r →
      (∀ l ∈ ls, l.session = x → l = .advance x true) →
      ls.countP (fun l ↦ decide (l.session = x)) = backends + 2 →
      ∃ session, r.sessions x = some session ∧ session.call = none ∧ session.running = true

/-- A free lock is taken. -/
theorem startsIn_acquire (hfree : s.sessionActive = false) (session : ProfilerSession)
    (backends : Nat) :
    ∃ session', (s.acquire false x session backends).sessions x = some session' ∧
      session'.StartsIn (backends + 2) := by
  rw [acquire, if_neg (by exact Bool.eq_false_iff.mp hfree)]
  refine ⟨_, setSession_self, 0, rfl, ?_, ?_⟩
  · simp
  · intro c hc
    obtain ⟨b, -, rfl⟩ := mem_map.mp hc
    exact ⟨rfl, rfl⟩

theorem CanStart.exists_running (h : s.CanStart disabled x) :
    ∃ ls r session, (profilerSessions disabled).Run s ls r ∧ r.sessions x = some session ∧
      session.running = true := by
  obtain ⟨t, hrun, ⟨r, hrun'⟩, hends⟩ := h 0 true
  obtain ⟨session, hx, -, hrunning⟩ := hends _ r hrun'
    (fun l hl _ ↦ eq_of_mem_replicate hl) (by simp [SessionsStep.session])
  exact ⟨_, r, session, hrun.append hrun', hx, hrunning⟩

theorem canStart_of_free (hx : s.sessions x = some session) (hcall : session.call = none)
    (hactive : session.active = false) (hfree : s.sessionActive = false) : s.CanStart false x := by
  intro backends ok
  let started : ProfilerSession :=
    { session with active := true, call := some (.startAcquire backends) }
  have hstart : s.step false (.start x backends) = some (s.setSession x started) := by
    simp [step, hx, hcall, hactive, started]
  have hacquire : (s.setSession x started).step false (.advance x ok) =
      some ((s.setSession x started).acquire false x started backends) := by
    simp only [step, setSession_self]
    rfl
  obtain ⟨session', hx', hin⟩ :=
    startsIn_acquire (s := s.setSession x started) hfree started backends
  refine ⟨_, .cons hstart (.single hacquire), exists_startsIn_run hx' hin, ?_⟩
  intro ls r hrun hls hcount
  exact startsIn_run hrun hls hx' (hcount ▸ hin)

/-! ### Disabled profiling -/

/-- The lock is never taken. -/
theorem Steps.stays_free (h : s.Steps true a s') (hfree : s.sessionActive = false) :
    s'.sessionActive = false := by
  cases h with
  | refused | construct | start | beginStop | cleanup => exact hfree
  | @advance x session call ok =>
    cases call <;> simp only [SessionsState.advance, acquire, SessionsState.resetProfilers,
      SessionsState.releaseIfActive, Bool.true_or, if_true]
    all_goals try split
    all_goals first | exact hfree | rfl

theorem free_of_disabled (hs : (profilerSessions true).Reachable s) : s.sessionActive = false := by
  refine hs.invariant (I := fun s ↦ s.sessionActive = false) ?_ ?_
  · rintro s rfl
    rfl
  · exact fun s a s' hfree hstep ↦ (steps_of_step hstep).stays_free hfree

/-! ### What holds in every run -/

/-- A running session is idle and has the lock. -/
theorem Flags.of_running (h : s.Flags) (hx : s.sessions x = some session)
    (hrunning : session.running = true) : session.call = none ∧ session.lock = true := by
  cases hcall : session.call with
  | none =>
    obtain ⟨hlock, hactive, -⟩ := (h.phase x session hx).idle hcall
    exact ⟨rfl, hlock.trans (hactive.symm.trans hrunning)⟩
  | some call =>
    have := ((h.phase x session hx).busy call hcall).2.2.1
    exact absurd (this.symm.trans hrunning) (by simp)

theorem not_running_of_disabled (hs : (profilerSessions true).Reachable s)
    (hx : s.sessions x = some session) : session.running = false := by
  obtain ⟨hflags, -⟩ := reachable_ok hs
  rw [Bool.eq_false_iff]
  intro hrunning
  have hheld := hflags.lock.held_of_holds ((lock_eq hx).trans (hflags.of_running hx hrunning).2)
  exact absurd (hheld.symm.trans (free_of_disabled hs)) (by simp)

/-- No call of a session is under way. -/
def Quiet (s : SessionsState) : Prop :=
  ∀ x session, s.sessions x = some session → session.call = none

/-- The session is active. -/
def Active (s : SessionsState) (x : Nat) : Prop :=
  ∃ session, s.sessions x = some session ∧ session.active = true

theorem lock_of_active (h : s.Flags) (hquiet : s.Quiet) (hx : s.Active x) :
    lockHolders s.sessions x = true := by
  obtain ⟨session, hx, hactive⟩ := hx
  rw [lock_eq hx, ((h.phase x session hx).idle (hquiet x session hx)).1]
  exact hactive

theorem active_of_lock (h : s.Flags) (hquiet : s.Quiet) (hx : lockHolders s.sessions x = true) :
    s.Active x := by
  obtain ⟨session, hx, hlock⟩ := exists_of_any hx
  exact ⟨session, hx, ((h.phase x session hx).idle (hquiet x session hx)).1.symm.trans hlock⟩

/-- The lock is held while one session is active. -/
theorem Flags.sessionActive_iff (h : s.Flags) (hquiet : s.Quiet) :
    s.sessionActive = true ↔ ∃! x, s.Active x := by
  rw [h.lock.iff]
  constructor
  · rintro ⟨x, hx⟩
    exact ⟨x, active_of_lock h hquiet hx, fun y hy ↦
      h.lock.unique y x (lock_of_active h hquiet hy) hx⟩
  · rintro ⟨x, hx, -⟩
    exact ⟨x, lock_of_active h hquiet hx⟩

/-- The current session is the active one. -/
theorem Flags.currentSession_iff (h : s.Flags) (hquiet : s.Quiet) (x : Nat) :
    s.currentSession = some x ↔ s.Active x := by
  rw [h.current x]
  constructor
  · intro hx
    obtain ⟨session, hx, hpublished⟩ := exists_of_any hx
    rw [ProfilerSession.published, hquiet x session hx] at hpublished
    exact ⟨session, hx, hpublished⟩
  · rintro ⟨session, hx, hactive⟩
    rw [published_eq hx, ProfilerSession.published, hquiet x session hx]
    exact hactive

/-- A session that has the lock runs or is in a call. -/
theorem Flags.exists_of_sessionActive (h : s.Flags) (hactive : s.sessionActive = true) :
    ∃ x session, s.sessions x = some session ∧
      (session.running = true ∨ ∃ call, session.call = some call ∧ call.locked = true) := by
  obtain ⟨x, hx⟩ := h.lock.iff.mp hactive
  obtain ⟨session, hx, hlock⟩ := exists_of_any hx
  refine ⟨x, session, hx, ?_⟩
  cases hcall : session.call with
  | none =>
    obtain ⟨heq, hrunning, -⟩ := (h.phase x session hx).idle hcall
    exact .inl (hrunning.trans (heq.symm.trans hlock))
  | some call => exact .inr ⟨call, rfl, ((h.phase x session hx).busy call hcall).2.1.symm.trans hlock⟩

/-- The controllers there are, of the session with the lock if any. -/
theorem Backends.exists_ok (h : s.Backends) (hflags : s.Flags) : ∃ profilers,
    BackendsOk s.log s.backends profilers ∧ ∀ c ∈ profilers, ∃ x session,
      s.sessions x = some session ∧ c ∈ session.profilers := by
  cases hactive : s.sessionActive with
  | false => exact ⟨[], h.free hactive, nofun⟩
  | true =>
    obtain ⟨x, hx⟩ := hflags.lock.iff.mp hactive
    obtain ⟨session, hx, hlock⟩ := exists_of_any hx
    exact ⟨session.profilers, (h.held x session hx hlock).1, fun c hc ↦ ⟨x, session, hx, hc⟩⟩

theorem stops_le {log : BackendLog} {c : ProfilerController} (h : log.At c) :
    log.stops c.backend ≤ if log.started c.backend then 1 else 0 := by
  obtain ⟨backend, state, status⟩ := c
  cases state with
  | init | start => exact Nat.le_trans (Nat.le_of_eq h.2) (Nat.zero_le _)
  | stop | collectData => exact Nat.le_of_eq h

/-- Every backend is stopped at most once, and once it was started and no session has it. -/
theorem Backends.stops (h : s.Backends) (hflags : s.Flags) (b : Nat) :
    s.log.stops b ≤ (if s.log.started b then 1 else 0) ∧
      ((∀ x session, s.sessions x = some session → ∀ c ∈ session.profilers, c.backend ≠ b) →
        s.log.stops b = if s.log.started b then 1 else 0) := by
  obtain ⟨profilers, hok, hin⟩ := h.exists_ok hflags
  by_cases hb : b ∈ profilers.map ProfilerController.backend
  · obtain ⟨c, hc, rfl⟩ := mem_map.mp hb
    obtain ⟨x, session, hx, hc'⟩ := hin c hc
    exact ⟨stops_le (hok.controllers c hc), fun hnone ↦ absurd rfl (hnone x session hx c hc')⟩
  · exact ⟨Nat.le_of_eq (hok.settled b hb), fun _ ↦ hok.settled b hb⟩

/-- One session runs at a time; between calls the lock is held while one session is active, and
that is the current session; the lock stays with a session that runs or is in a call, so that a
session can be started once the others are stopped, unless profiling is disabled; and a backend
that was started is stopped once before its session lets go of it. -/
theorem reachable_protocol (hs : (profilerSessions disabled).Reachable s) :
    (∀ x y session other, s.sessions x = some session → s.sessions y = some other →
      session.running = true → other.running = true → x = y) ∧
    (s.Quiet → (s.sessionActive = true ↔ ∃! x, s.Active x) ∧
      ∀ x, s.currentSession = some x ↔ s.Active x) ∧
    (s.sessionActive = true → ∃ x session, s.sessions x = some session ∧
      (session.running = true ∨ ∃ call, session.call = some call ∧ call.locked = true)) ∧
    (∀ x session, s.sessions x = some session → session.call = none → session.active = false →
      session.profilers = [] ∧
        (disabled = false → s.sessionActive = false → s.CanStart disabled x)) ∧
    (disabled = true → ∀ x session, s.sessions x = some session → session.running = false) ∧
    (∀ b, s.log.stops b ≤ (if s.log.started b then 1 else 0) ∧
      ((∀ x session, s.sessions x = some session → ∀ c ∈ session.profilers, c.backend ≠ b) →
        s.log.stops b = if s.log.started b then 1 else 0)) := by
  obtain ⟨hflags, hbackends⟩ := reachable_ok hs
  refine ⟨?_, ?_, hflags.exists_of_sessionActive, ?_, ?_, hbackends.stops hflags⟩
  · intro x y session other hx hy hrunning hrunning'
    exact hflags.lock.unique x y ((lock_eq hx).trans (hflags.of_running hx hrunning).2)
      ((lock_eq hy).trans (hflags.of_running hy hrunning').2)
  · exact fun hquiet ↦ ⟨hflags.sessionActive_iff hquiet, hflags.currentSession_iff hquiet⟩
  · intro x session hx hcall hactive
    refine ⟨((hflags.phase x session hx).idle hcall).2.2 hactive, ?_⟩
    rintro rfl hfree
    exact canStart_of_free hx hcall hactive hfree
  · rintro rfl x session hx
    exact not_running_of_disabled hs hx

/-- A session is refused while another runs, whose second backend does not start at the first
attempt; it starts when the other is destroyed, and the backends of the other are stopped. -/
theorem second_session_protocol : ∃ s, (profilerSessions false).Reachable s ∧
    s.log.started 0 = true ∧ s.log.started 1 = false ∧ s.log.started 2 = true ∧
    s.log.stops 0 = 1 ∧ s.log.stops 1 = 0 ∧ s.log.stops 2 ≤ 1 ∧ s.CanStart false 1 := by
  have hs : (profilerSessions false).Reachable _ :=
    ⟨{}, [.construct 0, .construct 1, .start 0 2, .advance 0 true, .advance 0 true,
      .advance 0 false, .advance 0 true, .advance 0 true, .advance 0 true, .advance 0 true,
      .advance 0 true, .advance 0 true, .start 0 1, .advance 0 true, .start 1 1, .advance 1 true,
      .advance 1 true, .advance 0 true, .advance 0 true, .advance 0 true, .destroy 0,
      .advance 0 true, .advance 0 true, .advance 0 true, .advance 0 true, .advance 0 true,
      .advance 0 true, .advance 0 true, .advance 0 true, .advance 0 true, .advance 0 true,
      .advance 0 true], rfl,
      .of_foldlM (fun _ _ _ h ↦ h) rfl⟩
  obtain ⟨-, -, -, hidle, -, hstops⟩ := reachable_protocol hs
  refine ⟨_, hs, rfl, rfl, rfl, rfl, rfl, (hstops 2).1, ?_⟩
  exact (hidle 1 _ rfl rfl rfl).2 rfl rfl

/-- With profiling disabled no session starts after a failed start. -/
theorem disabled_session_never_starts : ∃ s x session, (profilerSessions true).Reachable s ∧
    s.Quiet ∧ s.sessionActive = false ∧ s.sessions x = some session ∧ session.active = false ∧
    ¬ s.CanStart true x := by
  have hs : (profilerSessions true).Reachable _ :=
    ⟨{}, [.construct 0, .construct 1, .start 0 0, .advance 0 true, .advance 0 true], rfl,
      .of_foldlM (fun _ _ _ h ↦ h) rfl⟩
  refine ⟨_, 1, {}, hs, ?_, rfl, rfl, rfl, fun hstart ↦ ?_⟩
  · rintro (_ | _ | x) session hx <;> cases hx <;> rfl
  · obtain ⟨ls, r, session, hrun, hx, hrunning⟩ := hstart.exists_running
    exact absurd (hrunning.symm.trans (not_running_of_disabled (hs.run hrun) hx)) (by simp)

end SessionsState

end Hisab.Profiler
