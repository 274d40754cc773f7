import Hisab.Profiler.StepCallbacks

/-!
# The callback managers

`LocalCallbackManager` of `record_function.cpp`, the callbacks that a thread registers for itself
and the entries it keeps, and the changes that `GlobalCallbackManager` makes to the callbacks of
all threads. A snapshot is the version of the global callbacks with a copy of them.
-/

namespace Hisab.Profiler.RecordFunctions

open Function List

/-- `RecordFunctionCallbacksEntry` (`record_function.h:225–234`). -/
structure RecordFunctionCallbacksEntry (F : Type) where
  callback : RecordFunctionCallback F
  enabled : Bool := true
  handle : Nat

/-- `RecordFunctionTLS` (`record_function.h:542–549`). -/
structure RecordFunctionTLS (F : Type) where
  sortedTlsCallbacks : List (RecordFunctionCallbacksEntry F) := []
  tlsRecordFunctionEnabled : Bool := true

variable {F Gen : Type}

/-- `findCallback` (`record_function.cpp:44–49`). -/
def findCallback (entries : List (RecordFunctionCallbacksEntry F)) (handle : Nat) :
    Option (RecordFunctionCallbacksEntry F) :=
  entries.find? fun el ↦ el.handle = handle

/-- The entries after `extractCallback` (`record_function.cpp:51–62`) found the handle. -/
def eraseCallback (entries : List (RecordFunctionCallbacksEntry F)) (handle : Nat) :
    List (RecordFunctionCallbacksEntry F) :=
  entries.eraseP fun el ↦ el.handle = handle

/-- The first entry of a handle is enabled or disabled. -/
def setEnabled (entries : List (RecordFunctionCallbacksEntry F)) (handle : Nat) (enabled : Bool) :
    List (RecordFunctionCallbacksEntry F) :=
  match entries with
  | [] => []
  | el :: entries => if el.handle = handle then { el with enabled } :: entries
    else el :: setEnabled entries handle enabled

/-- The callbacks that `populate_callbacks` adds for a scope. -/
def populateCallbacks (scope : RecordScope) (entries : List (RecordFunctionCallbacksEntry F)) :
    List (RecordFunctionCallback F) :=
  (entries.filter fun i ↦ i.enabled && i.callback.scopes scope && 0 < i.callback.samplingProb).map
    RecordFunctionCallbacksEntry.callback

/-- The callbacks of a scope, of all threads and of one thread. -/
def scopeCallbacks (tls : RecordFunctionTLS F)
    (entries : List (RecordFunctionCallbacksEntry F)) (scope : RecordScope) :
    List (RecordFunctionCallback F) :=
  if tls.tlsRecordFunctionEnabled then
    populateCallbacks scope entries ++ populateCallbacks scope tls.sortedTlsCallbacks
  else []

/-- `LocalCallbackManager` (`record_function.cpp:168–206`) of the thread `threadId`. -/
structure LocalCallbackManager (F Gen : Type) where
  threadId : Nat
  registeredCallbacks : RecordFunctionTLS F := {}
  globalVersion : Nat := 0
  activeCallbacks : RecordScope → CacheEntry F
  generator : Gen

namespace LocalCallbackManager

variable (geometric : Rat → Gen → Nat × Gen)

/-- `rebuild_scope` (`record_function.cpp:529–551`). -/
def rebuildScope (snapshot : Nat × List (RecordFunctionCallbacksEntry F))
    (manager : LocalCallbackManager F Gen) (scope : RecordScope) : LocalCallbackManager F Gen :=
  let (entry, generator) := (manager.activeCallbacks scope).update geometric manager.threadId
    (scopeCallbacks manager.registeredCallbacks snapshot.2 scope) manager.generator
  { manager with
    activeCallbacks := update manager.activeCallbacks scope entry
    generator }

/-- `rebuild_all` (`record_function.cpp:499–506`). -/
def rebuildAll (snapshot : Nat × List (RecordFunctionCallbacksEntry F))
    (manager : LocalCallbackManager F Gen) : LocalCallbackManager F Gen :=
  RecordScope.all.foldl (rebuildScope geometric snapshot)
    { manager with globalVersion := snapshot.1 }

/-- `rebuild_callback_scopes` (`record_function.cpp:508–527`). -/
def rebuildCallbackScopes (snapshot : Nat × List (RecordFunctionCallbacksEntry F))
    (callback : RecordFunctionCallback F) (manager : LocalCallbackManager F Gen) :
    LocalCallbackManager F Gen :=
  if snapshot.1 = manager.globalVersion then
    (RecordScope.all.filter callback.scopes).foldl (rebuildScope geometric snapshot) manager
  else rebuildAll geometric snapshot manager

/-- The constructor (`record_function.cpp:424–431`). -/
def construct (threadId : Nat) (seed : Gen)
    (snapshot : Nat × List (RecordFunctionCallbacksEntry F)) : LocalCallbackManager F Gen :=
  rebuildAll geometric snapshot
    { threadId
      activeCallbacks := fun scope ↦ CacheEntry.rebuildActiveCallbacks threadId { scope }
      generator := seed }

/-- What a change of the thread's own callbacks is followed by. -/
inductive Effect (F Gen : Type)
  | rebuildAll (manager : LocalCallbackManager F Gen)
  | rebuildScopes (callback : RecordFunctionCallback F) (manager : LocalCallbackManager F Gen)
  | unchanged
  | notFound

/-- `addCallback` (`record_function.cpp:460–467`), of a new handle. -/
def addCallback (callback : RecordFunctionCallback F) (handle : Nat)
    (manager : LocalCallbackManager F Gen) : Effect F Gen :=
  let tls := manager.registeredCallbacks
  .rebuildScopes callback { manager with
    registeredCallbacks.sortedTlsCallbacks := tls.sortedTlsCallbacks ++ [{ callback, handle }] }

/-- `setCallbackEnabled` (`record_function.cpp:469–479`). -/
def setCallbackEnabled (handle : Nat) (enabled : Bool) (manager : LocalCallbackManager F Gen) :
    Effect F Gen :=
  let tls := manager.registeredCallbacks
  match findCallback tls.sortedTlsCallbacks handle with
  | none => .notFound
  | some el =>
    if el.enabled ≠ enabled then
      .rebuildScopes el.callback { manager with
        registeredCallbacks.sortedTlsCallbacks := setEnabled tls.sortedTlsCallbacks handle enabled }
    else .unchanged

/-- `removeCallback` (`record_function.cpp:481–490`). -/
def removeCallback (handle : Nat) (manager : LocalCallbackManager F Gen) : Effect F Gen :=
  let tls := manager.registeredCallbacks
  match findCallback tls.sortedTlsCallbacks handle with
  | none => .notFound
  | some el => .rebuildScopes el.callback { manager with
      registeredCallbacks.sortedTlsCallbacks := eraseCallback tls.sortedTlsCallbacks handle }

/-- `clearCallbacks` (`record_function.cpp:492–496`). -/
def clearCallbacks (manager : LocalCallbackManager F Gen) : Effect F Gen :=
  .rebuildAll { manager with registeredCallbacks.sortedTlsCallbacks := [] }

/-- `setTLS` (`record_function.cpp:449–453`). -/
def setTLS (tls : RecordFunctionTLS F) (manager : LocalCallbackManager F Gen) : Effect F Gen :=
  .rebuildAll { manager with registeredCallbacks := tls }

/-- `enableRecordFunction` (`record_function.cpp:738–746`). -/
def enableRecordFunction (enable : Bool) (manager : LocalCallbackManager F Gen) : Effect F Gen :=
  if manager.registeredCallbacks.tlsRecordFunctionEnabled ≠ enable then
    setTLS { manager.registeredCallbacks with tlsRecordFunctionEnabled := enable } manager
  else .unchanged

/-! ### What the entries are made of -/

variable {geometric} {snapshot : Nat × List (RecordFunctionCallbacksEntry F)}
  {manager : LocalCallbackManager F Gen} {entries : List (RecordFunctionCallbacksEntry F)}
  {changed : LocalCallbackManager F Gen}

/-- Every entry keeps the callbacks of its scope, the global ones as in `entries`. -/
def Built (manager : LocalCallbackManager F Gen)
    (entries : List (RecordFunctionCallbacksEntry F)) : Prop :=
  ∀ scope, (manager.activeCallbacks scope).Keeps
    (scopeCallbacks manager.registeredCallbacks entries scope)

theorem foldl_rebuildScope (scopes : List RecordScope) :
    (scopes.foldl (rebuildScope geometric snapshot) manager).registeredCallbacks =
        manager.registeredCallbacks ∧
      (scopes.foldl (rebuildScope geometric snapshot) manager).globalVersion =
        manager.globalVersion := by
  induction scopes generalizing manager with
  | nil => exact ⟨rfl, rfl⟩
  | cons scope scopes ih => exact ih

/-- The scopes that are rebuilt are made of the snapshot, and the others stay. -/
theorem keeps_foldl_rebuildScope (manager : LocalCallbackManager F Gen) (scopes : List RecordScope)
    {scope : RecordScope} (h : scope ∈ scopes ∨ (manager.activeCallbacks scope).Keeps
      (scopeCallbacks manager.registeredCallbacks snapshot.2 scope)) :
    ((scopes.foldl (rebuildScope geometric snapshot) manager).activeCallbacks scope).Keeps
      (scopeCallbacks manager.registeredCallbacks snapshot.2 scope) := by
  induction scopes generalizing manager with
  | nil =>
    cases h with
    | inl h => cases h
    | inr h => exact h
  | cons first scopes ih =>
    apply ih (rebuildScope geometric snapshot manager first)
    by_cases hscope : scope = first
    · subst hscope
      right
      simp only [rebuildScope, update_self]
      exact CacheEntry.keeps_update _ _ _
    · cases h with
      | inl h => exact .inl ((mem_cons.mp h).resolve_left hscope)
      | inr h =>
        right
        simpa only [rebuildScope, update_of_ne hscope] using h

theorem built_rebuildAll (geometric : Rat → Gen → Nat × Gen)
    (snapshot : Nat × List (RecordFunctionCallbacksEntry F)) (manager : LocalCallbackManager F Gen) :
    (rebuildAll geometric snapshot manager).Built snapshot.2 := by
  intro scope
  rw [rebuildAll]
  exact keeps_foldl_rebuildScope _ _ (.inl (RecordScope.mem_all scope))

theorem rebuildAll_globalVersion (manager : LocalCallbackManager F Gen) :
    (rebuildAll geometric snapshot manager).globalVersion = snapshot.1 := by
  rw [rebuildAll, (foldl_rebuildScope _).2]

theorem rebuildCallbackScopes_globalVersion (callback : RecordFunctionCallback F)
    (manager : LocalCallbackManager F Gen) :
    (rebuildCallbackScopes geometric snapshot callback manager).globalVersion = snapshot.1 := by
  unfold rebuildCallbackScopes
  split
  · next h => rw [(foldl_rebuildScope _).2, h]
  · exact rebuildAll_globalVersion manager

/-- A change that only scopes of the callback can see, after which these are rebuilt. -/
theorem built_rebuildCallbackScopes {callback : RecordFunctionCallback F}
    (hbuilt : manager.Built entries) (hactive : changed.activeCallbacks = manager.activeCallbacks)
    (hversion : changed.globalVersion = manager.globalVersion)
    (hscopes : ∀ scope, callback.scopes scope = false → scopeCallbacks changed.registeredCallbacks entries scope = scopeCallbacks manager.registeredCallbacks entries scope)
    (hsnapshot : snapshot.1 = manager.globalVersion → snapshot.2 = entries) :
    (rebuildCallbackScopes geometric snapshot callback changed).Built snapshot.2 := by
  unfold rebuildCallbackScopes
  split
  · next h =>
    rw [hversion] at h
    intro scope
    rw [(foldl_rebuildScope _).1]
    apply keeps_foldl_rebuildScope
    cases hscope : callback.scopes scope with
    | true =>
      left
      exact mem_filter.mpr ⟨RecordScope.mem_all scope, hscope⟩
    | false =>
      right
      rw [hsnapshot h, hscopes scope hscope, hactive]
      exact hbuilt scope
  · exact built_rebuildAll _ _ changed

/-! ### The scopes that a change concerns -/

variable {scope : RecordScope} {handle : Nat} {tls : RecordFunctionTLS F}
  {el : RecordFunctionCallbacksEntry F} {rebuilt : RecordFunctionCallback F}

theorem populateCallbacks_add (h : el.callback.scopes scope = false) :
    populateCallbacks scope (entries ++ [el]) = populateCallbacks scope entries := by
  simp [populateCallbacks, h]

theorem populateCallbacks_setEnabled (hfind : findCallback entries handle = some el)
    (h : el.callback.scopes scope = false) (enabled : Bool) :
    populateCallbacks scope (setEnabled entries handle enabled) =
      populateCallbacks scope entries := by
  induction entries with
  | nil => cases hfind
  | cons first entries ih =>
    rw [setEnabled]
    by_cases hfirst : first.handle = handle
    · have hel : first = el := by simpa [findCallback, hfirst] using hfind
      subst hel
      simp [populateCallbacks, hfirst, h]
    · have hfind' : findCallback entries handle = some el := by
        simpa [findCallback, hfirst] using hfind
      have ih := ih hfind'
      rw [if_neg hfirst]
      unfold populateCallbacks at ih ⊢
      rw [filter_cons, filter_cons]
      split
      · rw [map_cons, map_cons, ih]
      · exact ih

theorem populateCallbacks_erase (hfind : findCallback entries handle = some el)
    (h : el.callback.scopes scope = false) :
    populateCallbacks scope (eraseCallback entries handle) = populateCallbacks scope entries := by
  induction entries with
  | nil => cases hfind
  | cons first entries ih =>
    by_cases hfirst : first.handle = handle
    · have hel : first = el := by simpa [findCallback, hfirst] using hfind
      subst hel
      simp [populateCallbacks, eraseCallback, hfirst, h]
    · have hfind' : findCallback entries handle = some el := by
        simpa [findCallback, hfirst] using hfind
      have ih := ih hfind'
      have herase : eraseCallback (first :: entries) handle =
          first :: eraseCallback entries handle := by simp [eraseCallback, hfirst]
      rw [herase]
      unfold populateCallbacks at ih ⊢
      rw [filter_cons, filter_cons]
      split
      · rw [map_cons, map_cons, ih]
      · exact ih

/-- The callbacks of a scope depend on the thread's own ones through what they add. -/
theorem scopeCallbacks_congr {own : List (RecordFunctionCallbacksEntry F)}
    (h : populateCallbacks scope own = populateCallbacks scope tls.sortedTlsCallbacks) :
    scopeCallbacks { tls with sortedTlsCallbacks := own } entries scope =
      scopeCallbacks tls entries scope := by
  simp only [scopeCallbacks, h]

/-- What a change of the thread's own callbacks leaves of its entries. -/
structure Effect.Rebuildable (manager : LocalCallbackManager F Gen)
    (callback : RecordFunctionCallback F) (changed : LocalCallbackManager F Gen) : Prop where
  active : changed.activeCallbacks = manager.activeCallbacks
  version : changed.globalVersion = manager.globalVersion
  scopes : ∀ entries scope, callback.scopes scope = false →
    scopeCallbacks changed.registeredCallbacks entries scope =
      scopeCallbacks manager.registeredCallbacks entries scope

theorem addCallback_rebuildable {callback : RecordFunctionCallback F}
    (h : manager.addCallback callback handle = .rebuildScopes rebuilt changed) :
    Effect.Rebuildable manager rebuilt changed := by
  cases h
  exact ⟨rfl, rfl, fun entries scope hscope ↦ scopeCallbacks_congr (populateCallbacks_add hscope)⟩

theorem setCallbackEnabled_rebuildable {enabled : Bool}
    (h : manager.setCallbackEnabled handle enabled = .rebuildScopes rebuilt changed) :
    Effect.Rebuildable manager rebuilt changed := by
  unfold setCallbackEnabled at h
  cases hfind : findCallback manager.registeredCallbacks.sortedTlsCallbacks handle with
  | none =>
    simp only [hfind] at h
    cases h
  | some el =>
    simp only [hfind] at h
    split at h
    · cases h
      exact ⟨rfl, rfl, fun entries scope hscope ↦
        scopeCallbacks_congr (populateCallbacks_setEnabled hfind hscope enabled)⟩
    · cases h

theorem removeCallback_rebuildable
    (h : manager.removeCallback handle = .rebuildScopes rebuilt changed) :
    Effect.Rebuildable manager rebuilt changed := by
  unfold removeCallback at h
  cases hfind : findCallback manager.registeredCallbacks.sortedTlsCallbacks handle with
  | none =>
    simp only [hfind] at h
    cases h
  | some el =>
    simp only [hfind] at h
    cases h
    exact ⟨rfl, rfl, fun entries scope hscope ↦
      scopeCallbacks_congr (populateCallbacks_erase hfind hscope)⟩

end LocalCallbackManager

end Hisab.Profiler.RecordFunctions
