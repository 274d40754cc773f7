import Hisab.Profiler.SessionInvariant

/-!
# Sessions apart are isolated

When no call changes the level while another one that has changed it is under way, one call
at most is in `clear` or `consume`, the queues of all registered recorders have nothing from
before the session once they are cleared, and they keep all of the session until the next
`stop` takes it.
-/

namespace Hisab.Profiler

open Base List Nat SessionState

variable {s s' : SessionState} {log : List SessionEntry} {entry : SessionEntry}
  {c c₁ c₂ i j k r : Nat} {avail avail' : Nat → List Stamped} {call : ControlCall}
  {owner : Option Nat}

/-! ### Windows of the log -/

/-- The entry changes the level. -/
def SessionEntry.changes : SessionEntry → Bool
  | .started _ | .stopped _ => true
  | _ => false

/-- The last change of the level is that of the `start` call `c₁`, at `i`. -/
structure CurrentStart (log : List SessionEntry) (c₁ i : Nat) : Prop where
  started : log[i]? = some (.started c₁)
  unchanged : UnchangedBetween log i log.length

/-- What is available are events from after `i`, and all of those from after the return of
the `start` call `c₁` up to `j`. -/
structure Window (log : List SessionEntry) (c₁ i j : Nat) (avail : Nat → List Stamped) : Prop where
  later : ∀ r, ∀ event ∈ avail r, i < event.1
  complete : ∀ b : Nat, log[b]? = some (.startReturned c₁ true) → ∀ n r e, b < n → n < j →
    log[n]? = some (.recorded r e) → (n, e) ∈ avail r

theorem Window.congr (h : Window log c₁ i j avail)
    (hsub : ∀ r event, event ∈ avail' r ↔ event ∈ avail r) : Window log c₁ i j avail' :=
  ⟨fun r event he ↦ h.later r event ((hsub r event).mp he),
    fun b hb n r e hbn hnj hn ↦ (hsub r _).mpr (h.complete b hb n r e hbn hnj hn)⟩

/-- What is added to the log behind the window does not matter. -/
theorem Window.logged (h : Window log c₁ i j avail) (hj : j ≤ log.length) :
    Window (log ++ [entry]) c₁ i j avail where
  later := h.later
  complete b hb n r e hbn hnj hn := by
    have hn' : log[n]? = some (.recorded r e) := by
      rcases getElem?_snoc.mp hn with hn | ⟨rfl, -⟩
      · exact hn
      · omega
    rcases getElem?_snoc.mp hb with hb | ⟨rfl, -⟩
    · exact h.complete b hb n r e hbn hnj hn'
    · omega

/-- A new entry that records nothing is part of the window of the whole log. -/
theorem Window.grow (h : Window log c₁ i log.length avail) (hentry : ∀ r e, entry ≠ .recorded r e) :
    Window (log ++ [entry]) c₁ i (log.length + 1) avail where
  later := h.later
  complete b hb n r e hbn _ hn := by
    rcases getElem?_snoc.mp hn with hn | ⟨-, hrec⟩
    · exact (h.logged (le_refl _)).complete b hb n r e hbn (lt_of_getElem? hn)
        (getElem?_snoc.mpr (.inl hn))
    · exact absurd hrec (hentry r e)

theorem UnchangedBetween.of_snoc (h : UnchangedBetween (log ++ [entry]) i k)
    (hj : j ≤ log.length) (hjk : j ≤ k) : UnchangedBetween log i j := fun m c him hmj ↦ by
  have := h m c him (by omega)
  rwa [getElem?_append_left (by omega)] at this

/-- An entry that does not change the level leaves the current `start`. -/
theorem CurrentStart.of_snoc (h : CurrentStart (log ++ [entry]) c₁ i)
    (hentry : entry.changes = false) : CurrentStart log c₁ i where
  started := by
    rcases getElem?_snoc.mp h.started with hs | ⟨-, rfl⟩
    · exact hs
    · cases hentry
  unchanged := h.unchanged.of_snoc (le_refl _) (by simp)

theorem CurrentStart.lt (h : CurrentStart log c₁ i) : i < log.length := lt_of_getElem? h.started

/-- A new entry matches a `start` only as the `stop` of the current one. -/
theorem Matching.of_snoc (h : Matching (log ++ [entry]) c₁ c₂ i j) :
    Matching log c₁ c₂ i j ∨ j = log.length ∧ entry = .stopped c₂ ∧ CurrentStart log c₁ i := by
  rcases getElem?_snoc.mp h.stopped with hs | ⟨rfl, rfl⟩
  · have hj := lt_of_getElem? hs
    have hstarted := h.started
    rw [getElem?_append_left (lt_trans h.lt hj)] at hstarted
    exact .inl ⟨hstarted, hs, h.lt, h.unchanged.of_snoc (le_of_lt hj) (le_refl _)⟩
  · have hstarted := h.started
    rw [getElem?_append_left h.lt] at hstarted
    exact .inr ⟨rfl, rfl, hstarted, h.unchanged.of_snoc (le_refl _) (le_refl _)⟩

theorem Matching.lt_length (h : Matching log c₁ c₂ i j) : j < log.length := lt_of_getElem? h.stopped

/-! ### What `stop` has returned -/

/-- Every `stop` that has returned has returned the events of its session. -/
def ReturnedOk (log : List SessionEntry) : Prop :=
  ∀ (c₂ k : Nat) (result : SessionEvents), log[k]? = some (.stopReturned c₂ result) →
    ∀ c₁ i j, Matching log c₁ c₂ i j → Window log c₁ i j (eventsOf result)

theorem ReturnedOk.logged (h : ReturnedOk log)
    (hstopped : ∀ c₂, entry = .stopped c₂ → ∀ result, .stopReturned c₂ result ∉ log)
    (hreturned : ∀ c₂ result, entry = .stopReturned c₂ result →
      ∀ c₁ i j, Matching log c₁ c₂ i j → Window log c₁ i j (eventsOf result)) :
    ReturnedOk (log ++ [entry]) := by
  intro c₂ k result hk c₁ i j hm
  rcases getElem?_snoc.mp hk with hk | ⟨rfl, rfl⟩
  · rcases hm.of_snoc with hm | ⟨-, heq, -⟩
    · exact (h c₂ k result hk c₁ i j hm).logged (le_of_lt hm.lt_length)
    · exact absurd (mem_of_getElem? hk) (hstopped c₂ heq result)
  · rcases hm.of_snoc with hm | ⟨-, heq, -⟩
    · exact (hreturned c₂ result rfl c₁ i j hm).logged (le_of_lt hm.lt_length)
    · cases heq

/-! ### The call that is under way -/

/-- The events in the queues of the registered recorders. -/
def SessionState.queued (s : SessionState) (r : Nat) : List Stamped :=
  if r ∈ s.registered then s.queues r else []

/-- What a call of `stop` holds and has yet to pop. -/
def SessionState.draining (s : SessionState) (call : ControlCall) (recorders : List Nat)
    (r : Nat) : List Stamped :=
  call.held r ++ if r ∈ recorders then s.queues r else []

/-- The recorders that are not left have no event from before `i`, and the first of the
others has none behind the `end` that was read. -/
def SessionState.Cleared (s : SessionState) (recorders : List Nat) (left : Option Nat)
    (i : Nat) : Prop :=
  (∀ r ∈ s.registered, r ∉ recorders → ∀ event ∈ s.queues r, i < event.1) ∧
  ∀ r rs m, recorders = r :: rs → left = some m → ∀ event ∈ (s.queues r).drop m, i < event.1

/-- The call under way, if there is one, and what holds of the state while it is there. -/
inductive OwnerPhase (s : SessionState) : Option Nat → Prop
  | disabled : s.level = kTracingDisabled → s.recording = false → OwnerPhase s none
  | enabled : s.level ≠ kTracingDisabled → s.recording = true →
      (∀ c₁ i, CurrentStart s.log c₁ i → Window s.log c₁ i s.log.length s.queued) →
      OwnerPhase s none
  | starting {c : Nat} : s.calls c = .startRecording → s.level ≠ kTracingDisabled →
      s.recording = false → (∀ c₁ i, CurrentStart s.log c₁ i → c₁ = c) → OwnerPhase s (some c)
  | clearing {c : Nat} {recorders : List Nat} {left : Option Nat} :
      s.calls c = .clearing recorders left → s.level ≠ kTracingDisabled → s.recording = true →
      (∀ c₁ i, CurrentStart s.log c₁ i → c₁ = c ∧ s.Cleared recorders left i) →
      OwnerPhase s (some c)
  | stopping {c : Nat} : s.calls c = .stopRecording → s.level = kTracingDisabled →
      s.recording = true → (∀ c₁ i j, Matching s.log c₁ c i j → Window s.log c₁ i j s.queued) →
      OwnerPhase s (some c)
  | consuming {c : Nat} {recorders : List Nat} {events : List Stamped} {result : SessionEvents} :
      s.calls c = .consuming recorders events result → s.level = kTracingDisabled →
      s.recording = false → (∀ c₁ i j, Matching s.log c₁ c i j →
        Window s.log c₁ i j (s.draining (.consuming recorders events result) recorders)) →
      OwnerPhase s (some c)

/-- No other call is under way. -/
def Alone (s : SessionState) (owner : Option Nat) : Prop :=
  ∀ c, (s.calls c).underWay = true → owner = some c

/-- All that holds in every state. -/
structure SessionInv (s : SessionState) : Prop where
  log : LogInv s
  producers : ProducerInv s
  flow : FlowInv s
  returned : ReturnedOk s.log
  owner : ∃ owner, Alone s owner ∧ OwnerPhase s owner

/-- The registry may change outside of a session, and within one by recorders without
events. -/
theorem OwnerPhase.registry (h : OwnerPhase s owner) (hlevel : s'.level = s.level)
    (hrecording : s'.recording = s.recording) (hqueues : s'.queues = s.queues)
    (hcalls : s'.calls = s.calls) (hlog : s'.log = s.log)
    (hregistered : s.recording = true → ∀ r, (r ∈ s'.registered → r ∈ s.registered ∨
      s.queues r = []) ∧ (r ∈ s.registered → r ∈ s'.registered)) : OwnerPhase s' owner := by
  have hqueued : s.recording = true → ∀ r event, event ∈ s'.queued r ↔ event ∈ s.queued r := by
    intro hr r event
    rw [queued, queued, hqueues]
    by_cases hmem : r ∈ s.registered
    · rw [if_pos hmem, if_pos ((hregistered hr r).2 hmem)]
    · split
      · next hmem' =>
        rcases (hregistered hr r).1 hmem' with hmem' | hnil
        · exact absurd hmem' hmem
        · rw [hnil]
      · rfl
  cases h with
  | disabled hd hr => exact .disabled (hlevel.trans hd) (hrecording.trans hr)
  | enabled hd hr hw =>
    refine .enabled (hlevel ▸ hd) (hrecording.trans hr) fun c₁ i hcur ↦ ?_
    rw [hlog] at hcur ⊢
    exact (hw c₁ i hcur).congr (hqueued hr)
  | starting hc hd hr hmine =>
    exact .starting (hcalls ▸ hc) (hlevel ▸ hd) (hrecording.trans hr) (hlog ▸ hmine)
  | clearing hc hd hr hcleared =>
    refine .clearing (hcalls ▸ hc) (hlevel ▸ hd) (hrecording.trans hr) fun c₁ i hcur ↦ ?_
    rw [hlog] at hcur
    obtain ⟨hmine, hout, hin⟩ := hcleared c₁ i hcur
    refine ⟨hmine, fun r hmem hnot event he ↦ ?_, by rwa [hqueues]⟩
    rw [hqueues] at he
    rcases (hregistered hr r).1 hmem with hmem | hnil
    · exact hout r hmem hnot event he
    · rw [hnil] at he
      cases he
  | stopping hc hd hr hw =>
    refine .stopping (hcalls ▸ hc) (hlevel.trans hd) (hrecording.trans hr) fun c₁ i j hm ↦ ?_
    rw [hlog] at hm ⊢
    exact (hw c₁ i j hm).congr (hqueued hr)
  | consuming hc hd hr hw =>
    refine .consuming (hcalls ▸ hc) (hlevel.trans hd) (hrecording.trans hr) fun c₁ i j hm ↦ ?_
    rw [hlog] at hm ⊢
    unfold draining
    rw [hqueues]
    exact hw c₁ i j hm

/-- An entry of a call that is not under way. -/
theorem OwnerPhase.neutral (h : OwnerPhase s owner) (hc : (s.calls c).underWay = false)
    (hchanges : entry.changes = false) (hrecorded : ∀ r e, entry ≠ .recorded r e) :
    OwnerPhase ((s.setCall c call).logged entry) owner := by
  have hcalls : ∀ c', (s.calls c').underWay = true →
      ((s.setCall c call).logged entry).calls c' = s.calls c' := fun c' hc' ↦ by
    have hne : c' ≠ c := by
      rintro rfl
      rw [hc] at hc'
      cases hc'
    rw [logged_calls, setCall_of_ne s hne]
  have hlength : ((s.setCall c call).logged entry).log.length = s.log.length + 1 := by simp
  have hmatch : ∀ {c₁ c₂ i j}, Matching ((s.setCall c call).logged entry).log c₁ c₂ i j →
      Matching s.log c₁ c₂ i j := fun hm ↦ by
    rcases Matching.of_snoc hm with hm | ⟨-, rfl, -⟩
    · exact hm
    · cases hchanges
  cases h with
  | disabled hd hr => exact .disabled hd hr
  | enabled hd hr hw =>
    refine .enabled hd hr fun c₁ i hcur ↦ ?_
    rw [hlength]
    exact (hw c₁ i (hcur.of_snoc hchanges)).grow hrecorded
  | starting hc' hd hr hmine =>
    exact .starting ((hcalls _ (by rw [hc']; rfl)).trans hc') hd hr fun c₁ i hcur ↦
      hmine c₁ i (hcur.of_snoc hchanges)
  | clearing hc' hd hr hcleared =>
    exact .clearing ((hcalls _ (by rw [hc']; rfl)).trans hc') hd hr fun c₁ i hcur ↦
      hcleared c₁ i (hcur.of_snoc hchanges)
  | stopping hc' hd hr hw =>
    exact .stopping ((hcalls _ (by rw [hc']; rfl)).trans hc') hd hr fun c₁ i j hm ↦
      (hw c₁ i j (hmatch hm)).logged (le_of_lt (hmatch hm).lt_length)
  | consuming hc' hd hr hw =>
    exact .consuming ((hcalls _ (by rw [hc']; rfl)).trans hc') hd hr fun c₁ i j hm ↦
      (hw c₁ i j (hmatch hm)).logged (le_of_lt (hmatch hm).lt_length)

/-- An event that a registered recorder queues. -/
theorem OwnerPhase.record (h : OwnerPhase s owner) {t : Nat} {e : Event}
    (ht : t ∈ s.registered) : OwnerPhase (s.record t e) owner := by
  have hchanges : (SessionEntry.recorded t e).changes = false := rfl
  have hself : (s.record t e).queues t = s.queues t ++ [(s.log.length, e)] :=
    Function.update_self ..
  have hother : ∀ r, r ≠ t → (s.record t e).queues r = s.queues r := fun r hr ↦
    Function.update_of_ne hr ..
  have hregistered : (s.record t e).registered = s.registered := rfl
  have hmatch : ∀ {c₁ c₂ i j}, Matching (s.record t e).log c₁ c₂ i j →
      Matching s.log c₁ c₂ i j := fun hm ↦ by
    rcases Matching.of_snoc hm with hm | ⟨-, heq, -⟩
    · exact hm
    · cases heq
  -- every queue keeps its events and gets at most the new one
  have hqueues : ∀ r event, event ∈ (s.record t e).queues r →
      event ∈ s.queues r ∨ r = t ∧ event = (s.log.length, e) := fun r event he ↦ by
    by_cases hr : r = t
    · subst hr
      rw [hself] at he
      rcases mem_append.mp he with he | he
      · exact .inl he
      · exact .inr ⟨rfl, mem_singleton.mp he⟩
    · rw [hother r hr] at he
      exact .inl he
  have hkeep : ∀ r event, event ∈ s.queues r → event ∈ (s.record t e).queues r :=
    fun r event he ↦ by
      by_cases hr : r = t
      · subst hr
        rw [hself]
        exact mem_append_left _ he
      · rwa [hother r hr]
  have hwindow : ∀ {c₁ i j avail avail'}, i < s.log.length → Window s.log c₁ i j avail →
      j ≤ s.log.length → (∀ r event, event ∈ avail' r → event ∈ avail r ∨
        event = (s.log.length, e)) → (∀ r event, event ∈ avail r → event ∈ avail' r) →
      Window (s.record t e).log c₁ i j avail' := fun hi hw hj hnew hold ↦ by
    refine ⟨fun r event he ↦ ?_, fun b hb n r e' hbn hnj hn ↦ ?_⟩
    · rcases hnew r event he with he | rfl
      · exact hw.later r event he
      · exact hi
    · exact hold r _ ((hw.logged hj).complete b hb n r e' hbn hnj hn)
  have hqueued : ∀ r event, event ∈ (s.record t e).queued r → event ∈ s.queued r ∨
      event = (s.log.length, e) := fun r event he ↦ by
    unfold queued at he ⊢
    rw [hregistered] at he
    split at he
    · next hmem =>
      rw [if_pos hmem]
      exact (hqueues r event he).imp_right And.right
    · cases he
  have hqueuedKeep : ∀ r event, event ∈ s.queued r → event ∈ (s.record t e).queued r :=
    fun r event he ↦ by
      unfold queued at he ⊢
      rw [hregistered]
      split at he
      · next hmem =>
        rw [if_pos hmem]
        exact hkeep r event he
      · cases he
  cases h with
  | disabled hd hr => exact .disabled hd hr
  | enabled hd hr hw =>
    refine .enabled hd hr fun c₁ i hcur ↦ ?_
    have hcur' := hcur.of_snoc hchanges
    have hw' := hwindow hcur'.lt (hw c₁ i hcur') (le_refl _) hqueued hqueuedKeep
    refine ⟨hw'.later, fun b hb n r e' hbn hnj hn ↦ ?_⟩
    rcases getElem?_snoc.mp hn with hn' | ⟨rfl, heq⟩
    · exact hw'.complete b hb n r e' hbn (lt_of_getElem? hn') hn
    · cases heq
      rw [queued, hregistered, if_pos ht, hself]
      exact mem_append_right _ (mem_singleton_self _)
  | starting hc hd hr hmine =>
    exact .starting hc hd hr fun c₁ i hcur ↦ hmine c₁ i (hcur.of_snoc hchanges)
  | clearing hc hd hr hcleared =>
    refine .clearing hc hd hr fun c₁ i hcur ↦ ?_
    have hcur' := hcur.of_snoc hchanges
    obtain ⟨hmine, hout, hin⟩ := hcleared c₁ i hcur'
    refine ⟨hmine, fun r hmem hnot event he ↦ ?_, fun r rs m hrs hleft event he ↦ ?_⟩
    · rcases hqueues r event he with he | ⟨-, rfl⟩
      · exact hout r hmem hnot event he
      · exact hcur'.lt
    · by_cases hrt : r = t
      · subst hrt
        rw [hself, drop_append] at he
        rcases mem_append.mp he with he | he
        · exact hin r rs m hrs hleft event he
        · rw [mem_singleton.mp (mem_of_mem_drop he)]
          exact hcur'.lt
      · rw [hother r hrt] at he
        exact hin r rs m hrs hleft event he
  | stopping hc hd hr hw =>
    refine .stopping hc hd hr fun c₁ i j hm ↦ ?_
    have hm' := hmatch hm
    exact hwindow (lt_trans hm'.lt hm'.lt_length) (hw c₁ i j hm')
      (le_of_lt hm'.lt_length) hqueued hqueuedKeep
  | @consuming c recorders events result hc hd hr hw =>
    refine .consuming hc hd hr fun c₁ i j hm ↦ ?_
    have hm' := hmatch hm
    refine hwindow (lt_trans hm'.lt hm'.lt_length) (hw c₁ i j hm')
      (le_of_lt hm'.lt_length) (fun r event he ↦ ?_) fun r event he ↦ ?_
    · rcases mem_append.mp he with he | he
      · exact .inl (mem_append_left _ he)
      · split at he
        · next hmem =>
          refine (hqueues r event he).imp (fun he ↦ mem_append_right _ ?_) And.right
          rwa [if_pos hmem]
        · cases he
    · rcases mem_append.mp he with he | he
      · exact mem_append_left _ he
      · refine mem_append_right _ ?_
        split at he
        · next hmem =>
          rw [if_pos hmem]
          exact hkeep r event he
        · cases he

end Hisab.Profiler
