import Hisab.Profiler.CallbackRegistration

/-!
# The entries of a thread are coherent

A manager whose version is the current one was built from the registered callbacks. A change
counts the version up before the mutex is given back, so that every manager is behind by then.
-/

namespace Hisab.Profiler.RecordFunctions

open Base Function LocalCallbackManager

variable {F Gen : Type} {geometric : Rat → Gen → Nat × Gen} {seed : Gen}

/-- The thread holds the mutex. -/
def Pc.inside : Pc F → Bool
  | .entered _ | .halfway _ | .leaving => true
  | _ => false

namespace State

/-- Every manager is behind. -/
def Stale (s : State F Gen) : Prop :=
  ∀ t manager, s.managers t = some manager → manager.globalVersion < s.version

/-- What holds of the global callbacks between the stores of a change. `removeCallback` counts
the version up after the other store. -/
def InsideInv (s : State F Gen) : Pc F → Prop
  | .entered _ => s.callbacks = s.registered
  | .halfway (.removeCallback _) => True
  | .halfway _ => s.Stale
  | .leaving => s.callbacks = s.registered ∨ s.Stale
  | _ => True

/-- The manager was built from callbacks that are the registered ones if its version is the
current one. -/
structure Coherent (s : State F Gen) (manager : LocalCallbackManager F Gen)
    (entries : List (RecordFunctionCallbacksEntry F)) : Prop where
  built : manager.Built entries
  le : manager.globalVersion ≤ s.version
  current : manager.globalVersion = s.version → entries = s.registered

structure Inv (s : State F Gen) : Prop where
  owner : ∀ t, s.owner = some t ↔ (s.pc t).inside = true
  free : s.owner = none → s.callbacks = s.registered
  inside : ∀ t, s.InsideInv (s.pc t)
  coherent : ∀ t manager, s.managers t = some manager → ∃ entries, s.Coherent manager entries

variable {s s' : State F Gen} {t : Nat} {pc : Pc F} {manager : LocalCallbackManager F Gen}

theorem insideInv_of_not_inside (h : pc.inside = false) : s.InsideInv pc := by
  cases pc with
  | entered | halfway | leaving => cases h
  | _ => trivial

theorem inv_init : ({} : State F Gen).Inv where
  owner t := by simp [Pc.inside]
  free _ := rfl
  inside t := trivial
  coherent t manager h := by cases h

namespace Inv

variable (h : s.Inv) {callbacks : List (RecordFunctionCallbacksEntry F)}

include h

theorem not_inside (hfree : s.owner = none) (t : Nat) : (s.pc t).inside = false := by
  cases hin : (s.pc t).inside with
  | false => rfl
  | true =>
    have := (h.owner t).mpr hin
    rw [hfree] at this
    cases this

/-- No other thread is inside while one holds the mutex. -/
theorem others (hin : (s.pc t).inside = true) {t' : Nat} (hne : t' ≠ t) :
    (s.pc t').inside = false := by
  cases hin' : (s.pc t').inside with
  | false => rfl
  | true =>
    have h₁ := (h.owner t).mpr hin
    have h₂ := (h.owner t').mpr hin'
    rw [h₁] at h₂
    cases h₂
    exact absurd rfl hne

/-- A step outside the mutex that stores nothing. -/
theorem goto (hpc : (s.pc t).inside = false) (hpc' : pc.inside = false) : (s.goto t pc).Inv where
  owner t' := by
    by_cases ht : t' = t
    · subst ht
      rw [goto_pc_self, hpc', ← hpc]
      exact h.owner t'
    · rw [goto_pc_of_ne ht]
      exact h.owner t'
  free := h.free
  inside t' := by
    by_cases ht : t' = t
    · subst ht
      rw [goto_pc_self]
      exact insideInv_of_not_inside hpc'
    · rw [goto_pc_of_ne ht]
      have := h.inside t'
      cases hs : s.pc t' <;> rw [hs] at this <;> exact this
  coherent t' manager hm := by
    obtain ⟨entries, hbuilt, hle, hcurrent⟩ := h.coherent t' manager hm
    exact ⟨entries, hbuilt, hle, hcurrent⟩

/-- A manager changes and stays as far behind as it was. -/
theorem setManager_of_version {manager' : LocalCallbackManager F Gen}
    (hm : s.managers t = some manager) (hversion : manager'.globalVersion = manager.globalVersion)
    (hbuilt : ∀ entries, manager.Built entries → manager'.Built entries) :
    (s.setManager t manager').Inv where
  owner := h.owner
  free := h.free
  inside t' := by
    have hstale : s.Stale → (s.setManager t manager').Stale := by
      intro hstale t'' m'' hm''
      by_cases ht : t'' = t
      · subst ht
        rw [setManager_managers_self] at hm''
        cases hm''
        rw [hversion]
        exact hstale _ _ hm
      · rw [setManager_managers_of_ne ht] at hm''
        exact hstale _ _ hm''
    have hinside := h.inside t'
    show (s.setManager t manager').InsideInv (s.pc t')
    cases hs : s.pc t' with
    | halfway change =>
      rw [hs] at hinside
      cases change with
      | removeCallback => trivial
      | _ => exact hstale hinside
    | leaving =>
      rw [hs] at hinside
      exact hinside.imp_right hstale
    | _ =>
      rw [hs] at hinside
      exact hinside
  coherent t' m' hm' := by
    by_cases ht : t' = t
    · subst ht
      rw [setManager_managers_self] at hm'
      cases hm'
      obtain ⟨entries, hb, hle, hcurrent⟩ := h.coherent _ _ hm
      rw [← hversion] at hle hcurrent
      exact ⟨entries, hbuilt entries hb, hle, hcurrent⟩
    · rw [setManager_managers_of_ne ht] at hm'
      obtain ⟨entries, hb, hle, hcurrent⟩ := h.coherent t' m' hm'
      exact ⟨entries, hb, hle, hcurrent⟩

/-- A manager is built from the snapshot, while no thread holds the mutex. -/
theorem setManager_of_snapshot (hfree : s.owner = none) (hbuilt : manager.Built s.snapshot.2)
    (hversion : manager.globalVersion = s.snapshot.1) : (s.setManager t manager).Inv where
  owner := h.owner
  free := h.free
  inside t' := insideInv_of_not_inside (h.not_inside hfree t')
  coherent t' m' hm' := by
    by_cases ht : t' = t
    · subst ht
      rw [setManager_managers_self] at hm'
      cases hm'
      exact ⟨s.callbacks, hbuilt, Nat.le_of_eq hversion, fun _ ↦ h.free hfree⟩
    · rw [setManager_managers_of_ne ht] at hm'
      obtain ⟨entries, hb, hle, hcurrent⟩ := h.coherent t' m' hm'
      exact ⟨entries, hb, hle, hcurrent⟩

/-- A snapshot of the version that a manager has is of the callbacks it was built from. -/
theorem rebuildScopes (geometric : Rat → Gen → Nat × Gen) (hfree : s.owner = none) (hm : s.managers t = some manager)
    {callback : RecordFunctionCallback F} {changed : LocalCallbackManager F Gen}
    (hchanged : LocalCallbackManager.Effect.Rebuildable manager callback changed) :
    (s.setManager t (changed.rebuildCallbackScopes geometric s.snapshot callback)).Inv := by
  obtain ⟨entries, hb, -, hcurrent⟩ := h.coherent t manager hm
  apply h.setManager_of_snapshot hfree
  · apply built_rebuildCallbackScopes hb hchanged.active hchanged.version (hchanged.scopes entries)
    intro hversion
    rw [hcurrent hversion.symm]
    exact h.free hfree
  · exact rebuildCallbackScopes_globalVersion callback changed

theorem acquire (hfree : s.owner = none) (hpc : (s.pc t).inside = false) (change : GlobalChange F) :
    (({ s with owner := some t } : State F Gen).goto t (.entered change)).Inv where
  owner t' := by
    by_cases ht : t' = t
    · subst ht
      simp [State.goto, Pc.inside]
    · have hout := h.not_inside hfree t'
      have hne : t ≠ t' := fun h ↦ ht h.symm
      simp [State.goto, update_of_ne ht, hout, hne]
  free hnone := by cases hnone
  inside t' := by
    by_cases ht : t' = t
    · subst ht
      rw [goto_pc_self]
      exact h.free hfree
    · rw [goto_pc_of_ne ht]
      exact insideInv_of_not_inside (h.not_inside hfree t')
  coherent t' m hm := by
    obtain ⟨entries, hb, hle, hcurrent⟩ := h.coherent t' m hm
    exact ⟨entries, hb, hle, hcurrent⟩

/-- A store of the thread that holds the mutex: what it says of the callbacks holds, and no
manager gets ahead. -/
theorem store {version : Nat} {nextHandle : Nat} (hpc : (s.pc t).inside = true)
    (hpc' : pc.inside = true) (hversion : s.version ≤ version)
    (hcurrent : ∀ t' m, s.managers t' = some m → m.globalVersion = version → version = s.version)
    (hinside : ({ s with version, callbacks, nextHandle } : State F Gen).InsideInv pc) :
    (({ s with version, callbacks, nextHandle } : State F Gen).goto t pc).Inv where
  owner t' := by
    by_cases ht : t' = t
    · subst ht
      rw [goto_pc_self, hpc']
      exact iff_of_true ((h.owner t').mpr hpc) rfl
    · rw [goto_pc_of_ne ht]
      exact h.owner t'
  free hnone := by
    have := (h.owner t).mpr hpc
    rw [show s.owner = none from hnone] at this
    cases this
  inside t' := by
    by_cases ht : t' = t
    · subst ht
      rw [goto_pc_self]
      cases pc <;> exact hinside
    · rw [goto_pc_of_ne ht]
      exact insideInv_of_not_inside (h.others hpc ht)
  coherent t' m hm := by
    obtain ⟨entries, hb, hle, hcur⟩ := h.coherent t' m hm
    refine ⟨entries, hb, Nat.le_trans hle hversion, ?_⟩
    intro heq
    exact hcur (heq.trans (hcurrent t' m hm heq))

/-- The version is counted up. -/
theorem stale_succ {nextHandle : Nat} :
    ({ s with version := s.version + 1, callbacks, nextHandle } : State F Gen).Stale := by
  intro t m hm
  obtain ⟨entries, -, hle, -⟩ := h.coherent t m hm
  exact Nat.lt_succ_of_le hle

theorem not_succ (t' : Nat) (m : LocalCallbackManager F Gen) (hm : s.managers t' = some m)
    (heq : m.globalVersion = s.version + 1) : s.version + 1 = s.version := by
  obtain ⟨entries, -, hle, -⟩ := h.coherent t' m hm
  omega

theorem firstStore {change : GlobalChange F} (hpc : s.pc t = .entered change) :
    (s.firstStore t change).Inv := by
  have hin : (s.pc t).inside = true := by rw [hpc]; rfl
  have hsame : s.callbacks = s.registered := by
    have := h.inside t
    rwa [hpc] at this
  have hleave : (s.goto t .leaving).Inv :=
    h.store hin rfl (Nat.le_refl _) (fun _ _ _ _ ↦ rfl) (.inl hsame)
  cases change with
  | addCallback callback => exact h.store hin rfl (Nat.le_succ _) h.not_succ h.stale_succ
  | setCallbackEnabled handle enabled =>
    rw [State.firstStore]
    split
    · split
      · exact h.store hin rfl (Nat.le_succ _) h.not_succ h.stale_succ
      · exact hleave
    · exact hleave
  | removeCallback handle =>
    rw [State.firstStore]
    split
    · exact h.store hin rfl (Nat.le_refl _) (fun _ _ _ _ ↦ rfl) trivial
    · exact hleave
  | clearCallbacks => exact h.store hin rfl (Nat.le_succ _) h.not_succ h.stale_succ

theorem secondStore {change : GlobalChange F} (hpc : s.pc t = .halfway change) :
    (s.secondStore t change).Inv := by
  have hin : (s.pc t).inside = true := by rw [hpc]; rfl
  have hinside := h.inside t
  rw [hpc] at hinside
  cases change with
  | removeCallback handle => exact h.store hin rfl (Nat.le_succ _) h.not_succ (.inr h.stale_succ)
  | _ => exact h.store hin rfl (Nat.le_refl _) (fun _ _ _ _ ↦ rfl) (.inr hinside)

theorem leave (hpc : s.pc t = .leaving) :
    (({ s with owner := none, registered := s.callbacks } : State F Gen).goto t .idle).Inv := by
  have hin : (s.pc t).inside = true := by rw [hpc]; rfl
  have hinside := h.inside t
  rw [hpc] at hinside
  constructor
  · intro t'
    by_cases ht : t' = t
    · subst ht
      simp [State.goto, Pc.inside]
    · have hout := h.others hin ht
      simp [State.goto, update_of_ne ht, hout]
  · intro _
    rfl
  · intro t'
    by_cases ht : t' = t
    · subst ht
      rw [goto_pc_self]
      trivial
    · rw [goto_pc_of_ne ht]
      exact insideInv_of_not_inside (h.others hin ht)
  · intro t' m hm
    obtain ⟨entries, hb, hle, hcurrent⟩ := h.coherent t' m hm
    refine ⟨entries, hb, hle, ?_⟩
    intro heq
    cases hinside with
    | inl hsame => rw [hcurrent heq, ← hsame]; rfl
    | inr hstale => exact absurd heq (Nat.ne_of_lt (hstale t' m hm))

end Inv

/-! ### Every step -/

namespace Inv

theorem applyEffect (h : s.Inv) {effect : LocalCallbackManager.Effect F Gen} {missing : Pc F}
    (hnext : s.applyEffect geometric t missing effect = some s')
    (hm : s.managers t = some manager) (hpc : (s.pc t).inside = false)
    (hmissing : missing.inside = false)
    (hchanged : ∀ callback changed, effect = .rebuildScopes callback changed →
      LocalCallbackManager.Effect.Rebuildable manager callback changed) : s'.Inv := by
  cases effect with
  | rebuildAll changed =>
    rw [State.applyEffect] at hnext
    split at hnext
    · next hfree =>
      cases hnext
      have hset := h.setManager_of_snapshot (t := t) hfree
        (built_rebuildAll geometric s.snapshot changed)
        (rebuildAll_globalVersion changed)
      exact hset.goto hpc rfl
    · cases hnext
  | rebuildScopes callback changed =>
    rw [State.applyEffect] at hnext
    split at hnext
    · next hfree =>
      cases hnext
      have hset := h.rebuildScopes geometric hfree hm (hchanged callback changed rfl)
      exact hset.goto hpc rfl
    · cases hnext
  | unchanged =>
    cases hnext
    exact h.goto hpc rfl
  | notFound =>
    cases hnext
    exact h.goto hpc hmissing

theorem enter (h : s.Inv) {call : LocalCall F} (hm : s.managers t = some manager)
    (hpc : (s.pc t).inside = false) (hnext : s.enter geometric t manager call = some s') :
    s'.Inv := by
  cases call with
  | addThreadLocalCallback callback =>
    have h' : ({ s with nextHandle := s.nextHandle + 1 } : State F Gen).Inv := by
      refine ⟨h.owner, h.free, ?_, ?_⟩
      · intro t'
        have := h.inside t'
        cases hs : s.pc t' <;> rw [hs] at this <;> exact this
      · intro t' m hm'
        obtain ⟨entries, hb, hle, hcurrent⟩ := h.coherent t' m hm'
        exact ⟨entries, hb, hle, hcurrent⟩
    rw [State.enter] at hnext
    have hm' : ({ s with nextHandle := s.nextHandle + 1 } : State F Gen).managers t =
        some manager := hm
    exact h'.applyEffect hnext hm' hpc rfl (fun _ _ heq ↦ addCallback_rebuildable heq)
  | setCallbackEnabled handle enabled =>
    exact h.applyEffect hnext hm hpc rfl (fun _ _ heq ↦ setCallbackEnabled_rebuildable heq)
  | removeCallback handle =>
    exact h.applyEffect hnext hm hpc rfl (fun _ _ heq ↦ removeCallback_rebuildable heq)
  | clearThreadLocalCallbacks | setRecordFunctionTls tls =>
    rw [State.enter] at hnext
    exact h.applyEffect hnext hm hpc rfl nofun
  | enableRecordFunction enable =>
    apply h.applyEffect hnext hm hpc rfl
    intro callback changed heq
    unfold enableRecordFunction at heq
    split at heq <;> cases heq
  | getStepCallbacks scope =>
    rw [State.enter] at hnext
    split at hnext
    · cases hnext
      exact h.goto hpc rfl
    · cases hnext
      exact h.goto hpc rfl

theorem advance (h : s.Inv) (hnext : s.advance geometric seed t = some s') : s'.Inv := by
  unfold State.advance at hnext
  cases hpc : s.pc t with
  | idle =>
    rw [hpc] at hnext
    cases hnext
  | calling call =>
    have hout : (s.pc t).inside = false := by rw [hpc]; rfl
    simp only [hpc] at hnext
    cases hm : s.managers t with
    | some manager =>
      simp only [hm] at hnext
      exact h.enter hm hout hnext
    | none =>
      simp only [hm] at hnext
      split at hnext
      · next hfree =>
        cases hnext
        apply h.setManager_of_snapshot hfree
        · exact built_rebuildAll _ _ _
        · exact rebuildAll_globalVersion _
      · cases hnext
  | acquiring change =>
    have hout : (s.pc t).inside = false := by rw [hpc]; rfl
    simp only [hpc] at hnext
    split at hnext
    · next hfree =>
      cases hnext
      exact h.acquire hfree hout change
    · cases hnext
  | entered change =>
    simp only [hpc] at hnext
    cases hnext
    exact h.firstStore hpc
  | halfway change =>
    simp only [hpc] at hnext
    cases hnext
    exact h.secondStore hpc
  | leaving =>
    simp only [hpc] at hnext
    cases hnext
    exact h.leave hpc
  | refreshing scope =>
    have hout : (s.pc t).inside = false := by rw [hpc]; rfl
    simp only [hpc] at hnext
    cases hm : s.managers t with
    | some manager =>
      simp only [hm] at hnext
      split at hnext
      · next hfree =>
        cases hnext
        have hset := h.setManager_of_snapshot (t := t) hfree
          (built_rebuildAll geometric s.snapshot manager)
          (rebuildAll_globalVersion manager)
        exact hset.goto hout rfl
      · cases hnext
    | none =>
      simp only [hm] at hnext
      cases hnext
  | answering scope =>
    simp only [hpc] at hnext
    cases hnext

theorem ret (h : s.Inv) (hnext : s.next geometric seed (t, .ret) = some s') : s'.Inv := by
  rw [State.next] at hnext
  cases hpc : s.pc t with
  | answering scope =>
    have hout : (s.pc t).inside = false := by rw [hpc]; rfl
    cases hm : s.managers t with
    | some manager =>
      simp only [State.answer, hpc, hm] at hnext
      cases hnext
      refine Inv.goto (h.setManager_of_version hm rfl ?_) hout rfl
      intro entries hbuilt scope'
      by_cases hscope : scope' = scope
      · subst hscope
        simp only [update_self]
        exact (hbuilt scope').getActiveCallbacksImpl _ _
      · simp only [update_of_ne hscope]
        exact hbuilt scope'
    | none =>
      simp only [State.answer, hpc, hm] at hnext
      cases hnext
  | _ =>
    simp only [State.answer, hpc] at hnext
    cases hnext

theorem next (h : s.Inv) {l : Nat × Action F} (hnext : s.next geometric seed l = some s') :
    s'.Inv := by
  obtain ⟨t, action⟩ := l
  cases action with
  | call call =>
    rw [State.next] at hnext
    cases hpc : s.pc t with
    | idle =>
      have hout : (s.pc t).inside = false := by rw [hpc]; rfl
      simp only [hpc] at hnext
      cases hnext
      cases call <;> exact h.goto hout rfl
    | _ =>
      simp only [hpc] at hnext
      cases hnext
  | step => exact h.advance hnext
  | ret => exact h.ret hnext

end Inv

end State

theorem inv_of_reachable {s : State F Gen} (h : (registration geometric seed).Reachable s) :
    s.Inv :=
  h.invariant (fun _ hs ↦ hs ▸ State.inv_init) (fun _ _ _ hs hnext ↦ hs.next hnext)

end Hisab.Profiler.RecordFunctions
