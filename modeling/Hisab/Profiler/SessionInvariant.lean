import Hisab.Profiler.RecorderSessions

/-!
# What the log, the queues and the calls know of each other

Three invariants of the recorder that hold of every run: how far a call is when the log has
an entry of it, where the events of a queue stand in the log, and that what `stop` has
returned or taken comes before what is still queued.
-/

namespace Hisab.Profiler

open List SessionState List.Sublist

variable {s s' : SessionState} {log : List SessionEntry} {entry x : SessionEntry}
  {c c₁ c₂ i j k r : Nat} {call : ControlCall}

/-! ### The log -/

theorem getElem?_snoc {A : Type} {l : List A} {x y : A} {k : Nat} :
    (l ++ [x])[k]? = some y ↔ l[k]? = some y ∨ k = l.length ∧ x = y := by
  rcases Nat.lt_trichotomy k l.length with hk | rfl | hk
  · rw [getElem?_append_left hk]
    simp [Nat.ne_of_lt hk]
  · simp
  · have hnone : (l ++ [x])[k]? = none := getElem?_eq_none (by simp; omega)
    have hnone' : l[k]? = none := getElem?_eq_none (by omega)
    simp [hnone, hnone', Nat.ne_of_gt hk]

theorem lt_of_getElem? {A : Type} {l : List A} {y : A} {k : Nat} (h : l[k]? = some y) :
    k < l.length := (List.getElem?_eq_some_iff.mp h).1

/-- How far a call is. -/
def ControlCall.progress : ControlCall → Nat
  | .absent => 0
  | .startCalled _ | .stopCalled => 1
  | .startRecording | .clearing _ _ | .stopRecording | .consuming _ _ _ => 2
  | .returned => 3

theorem ControlCall.underWay_iff : call.underWay = true ↔ call.progress = 2 := by
  cases call <;> simp [underWay, progress]

/-- An entry of the log is of a call that is as far as that. -/
structure LogInv (s : SessionState) : Prop where
  started : ∀ c, .started c ∈ s.log → 2 ≤ (s.calls c).progress
  stopped : ∀ c, .stopped c ∈ s.log → 2 ≤ (s.calls c).progress
  startReturned : ∀ c ok, .startReturned c ok ∈ s.log → 3 ≤ (s.calls c).progress
  stopReturned : ∀ c result, .stopReturned c result ∈ s.log → 3 ≤ (s.calls c).progress
  startOrder : ∀ c a i : Nat, s.log[a]? = some (.startCalled c) →
    s.log[i]? = some (.started c) → a < i
  stopOrder : ∀ c a i : Nat, s.log[a]? = some (.stopCalled c) →
    s.log[i]? = some (.stopped c) → a < i
  level : ∀ c level, s.calls c = .startCalled level → 0 ≤ level

/-- The entry can be added now. -/
def EntryOk (s : SessionState) : SessionEntry → Prop
  | .recorded _ _ => True
  | .startCalled c => .started c ∉ s.log
  | .stopCalled c => .stopped c ∉ s.log
  | .started c | .stopped c => 2 ≤ (s.calls c).progress
  | .startReturned c _ | .stopReturned c _ => 3 ≤ (s.calls c).progress

theorem LogInv.logged (h : LogInv s) (hok : EntryOk s entry) : LogInv (s.logged entry) where
  started c hc := by
    rcases mem_append.mp hc with hc | hc
    · exact h.started c hc
    · rw [← mem_singleton.mp hc] at hok
      exact hok
  stopped c hc := by
    rcases mem_append.mp hc with hc | hc
    · exact h.stopped c hc
    · rw [← mem_singleton.mp hc] at hok
      exact hok
  startReturned c ok hc := by
    rcases mem_append.mp hc with hc | hc
    · exact h.startReturned c ok hc
    · rw [← mem_singleton.mp hc] at hok
      exact hok
  stopReturned c result hc := by
    rcases mem_append.mp hc with hc | hc
    · exact h.stopReturned c result hc
    · rw [← mem_singleton.mp hc] at hok
      exact hok
  startOrder c a i ha hi := by
    rcases getElem?_snoc.mp ha with ha | ⟨rfl, rfl⟩
    · rcases getElem?_snoc.mp hi with hi | ⟨rfl, -⟩
      · exact h.startOrder c a i ha hi
      · exact lt_of_getElem? ha
    · rcases getElem?_snoc.mp hi with hi | ⟨-, heq⟩
      · exact absurd (mem_of_getElem? hi) hok
      · cases heq
  stopOrder c a i ha hi := by
    rcases getElem?_snoc.mp ha with ha | ⟨rfl, rfl⟩
    · rcases getElem?_snoc.mp hi with hi | ⟨rfl, -⟩
      · exact h.stopOrder c a i ha hi
      · exact lt_of_getElem? ha
    · rcases getElem?_snoc.mp hi with hi | ⟨-, heq⟩
      · exact absurd (mem_of_getElem? hi) hok
      · cases heq
  level := h.level

/-- Calls only get further. -/
theorem LogInv.advance (h : LogInv s) (hlog : s'.log = s.log)
    (hcalls : ∀ c, (s.calls c).progress ≤ (s'.calls c).progress)
    (hlevel : ∀ c level, s'.calls c = .startCalled level → 0 ≤ level) : LogInv s' where
  started c hc := Nat.le_trans (h.started c (hlog ▸ hc)) (hcalls c)
  stopped c hc := Nat.le_trans (h.stopped c (hlog ▸ hc)) (hcalls c)
  startReturned c ok hc := Nat.le_trans (h.startReturned c ok (hlog ▸ hc)) (hcalls c)
  stopReturned c result hc := Nat.le_trans (h.stopReturned c result (hlog ▸ hc)) (hcalls c)
  startOrder c a i ha hi := h.startOrder c a i (hlog ▸ ha) (hlog ▸ hi)
  stopOrder c a i ha hi := h.stopOrder c a i (hlog ▸ ha) (hlog ▸ hi)
  level := hlevel

theorem LogInv.setCall (h : LogInv s) (hprogress : (s.calls c).progress ≤ call.progress)
    (hlevel : ∀ level, call = .startCalled level → 0 ≤ level) : LogInv (s.setCall c call) := by
  refine h.advance rfl (fun c' ↦ ?_) fun c' level hc' ↦ ?_
  · by_cases heq : c' = c
    · subst heq
      rwa [setCall_self]
    · exact Nat.le_of_eq (by rw [setCall_of_ne s heq])
  · by_cases heq : c' = c
    · subst heq
      rw [setCall_self] at hc'
      exact hlevel level hc'
    · rw [setCall_of_ne s heq] at hc'
      exact h.level c' level hc'

/-! ### The threads -/

/-- A thread without a recorder has queued nothing, and a live one is registered. -/
structure ProducerInv (s : SessionState) : Prop where
  unregistered : ∀ t, s.producers t = .unregistered → s.queues t = []
  live : ∀ t, s.producers t = .live → (t, true) ∈ s.threads

theorem ProducerInv.mem_registered (h : ProducerInv s) {t : Nat} (ht : s.producers t = .live) :
    t ∈ s.registered := mem_map.mpr ⟨(t, true), h.live t ht, rfl⟩

/-! ### The events -/

/-- What a call of `stop` has taken from the queue of `r` and not returned. -/
def ControlCall.held (call : ControlCall) (r : Nat) : List Stamped :=
  match call with
  | .consuming recorders events result =>
    eventsOf result r ++ if recorders.head? = some r then events else []
  | _ => []

theorem ControlCall.held_of_not_underWay (h : call.underWay = false) : call.held r = [] := by
  cases call <;> first | rfl | cases h

/-- The events of a recorder that have been returned, that a call holds, and that are queued. -/
def SessionState.flow (s : SessionState) (c r : Nat) : List Stamped :=
  returnedOf s.log r ++ (s.calls c).held r ++ s.queues r

/-- They are in the order in which they were recorded. -/
def FlowInv (s : SessionState) : Prop :=
  ∀ c r, ((s.flow c r).map Prod.fst).Pairwise (· < ·) ∧
    ∀ event ∈ s.flow c r, s.log[event.1]? = some (.recorded r event.2)

theorem FlowInv.mono (h : FlowInv s) (hlog : s.log <+: s'.log)
    (hflow : ∀ c r, ∃ c', (s'.flow c r).Sublist (s.flow c' r)) : FlowInv s' := by
  intro c r
  obtain ⟨c', hsub⟩ := hflow c r
  refine ⟨(h c' r).1.sublist (hsub.map Prod.fst), fun event hevent ↦ ?_⟩
  have hget := (h c' r).2 event (hsub.subset hevent)
  obtain ⟨suffix, hsuffix⟩ := hlog
  rw [← hsuffix, getElem?_append_left (lt_of_getElem? hget)]
  exact hget

theorem returnedOf_snoc (log : List SessionEntry) (entry : SessionEntry) (r : Nat) :
    returnedOf (log ++ [entry]) r = returnedOf log r ++ returnedOf [entry] r :=
  flatMap_append

/-- The entry is not the return of a `stop` with events. -/
theorem returnedOf_singleton (h : ∀ c result, entry = .stopReturned c result → result = []) :
    returnedOf [entry] r = [] := by
  cases entry <;> first | rfl | skip
  next c result =>
  rw [h c result rfl]
  rfl

/-- A call that holds nothing changes, and an entry without events is added. -/
theorem FlowInv.setCall_logged (h : FlowInv s) (hheld : ∀ r, call.held r = [])
    (hentry : ∀ c result, entry = .stopReturned c result → result = []) :
    FlowInv ((s.setCall c call).logged entry) := by
  refine h.mono (prefix_append ..) fun c' r ↦ ⟨c', ?_⟩
  have hreturned : returnedOf ((s.setCall c call).logged entry).log r = returnedOf s.log r := by
    rw [logged, returnedOf_snoc, returnedOf_singleton hentry, append_nil]
    rfl
  rw [flow, hreturned]
  refine ((refl _).append ?_).append (refl _)
  rw [logged_calls]
  by_cases heq : c' = c
  · subst heq
    rw [setCall_self, hheld]
    exact nil_sublist _
  · rw [setCall_of_ne s heq]

theorem FlowInv.setCall (h : FlowInv s)
    (hheld : ∀ r, call.held r = (s.calls c).held r ∨ call.held r = []) :
    FlowInv (s.setCall c call) := by
  refine h.mono (prefix_refl _) fun c' r ↦ ⟨c', ?_⟩
  refine ((refl _).append ?_).append (refl _)
  by_cases heq : c' = c
  · subst heq
    rw [setCall_self]
    rcases hheld r with hsame | hnil
    · rw [hsame]
    · rw [hnil]
      exact nil_sublist _
  · rw [setCall_of_ne s heq]

/-- An event that is recorded goes behind all others of its recorder. -/
theorem FlowInv.record (h : FlowInv s) (t : Nat) (e : Event) : FlowInv (s.record t e) := by
  intro c r
  have hreturned : returnedOf (s.record t e).log r = returnedOf s.log r := by
    rw [SessionState.record, logged, returnedOf_snoc]
    exact append_nil _
  have hgenuine : ∀ event ∈ s.flow c r, (s.record t e).log[event.1]? =
      some (.recorded r event.2) := fun event hevent ↦
    getElem?_snoc.mpr (.inl ((h c r).2 event hevent))
  by_cases heq : r = t
  · subst heq
    have hqueue : (s.record r e).queues r = s.queues r ++ [(s.log.length, e)] :=
      Function.update_self ..
    have hflow : (s.record r e).flow c r = s.flow c r ++ [(s.log.length, e)] := by
      rw [flow, hreturned, hqueue, ← append_assoc]
      rfl
    rw [hflow]
    refine ⟨?_, fun event hevent ↦ ?_⟩
    · rw [map_append, pairwise_append]
      refine ⟨(h c r).1, pairwise_singleton .., fun n hn m hm ↦ ?_⟩
      obtain ⟨event, hevent, rfl⟩ := mem_map.mp hn
      rw [map_singleton, mem_singleton] at hm
      rw [hm]
      exact lt_of_getElem? ((h c r).2 event hevent)
    · rcases mem_append.mp hevent with hevent | hevent
      · exact hgenuine event hevent
      · rw [mem_singleton.mp hevent]
        exact getElem?_snoc.mpr (.inr ⟨rfl, rfl⟩)
  · have hqueue : (s.record t e).queues r = s.queues r := Function.update_of_ne heq ..
    have hflow : (s.record t e).flow c r = s.flow c r := by
      rw [flow, hreturned, hqueue]
      rfl
    rw [hflow]
    exact ⟨(h c r).1, hgenuine⟩

/-- An event that `clear` drops leaves the others. -/
theorem FlowInv.drop (h : FlowInv s) (r : Nat) : FlowInv (s.setQueue r (s.queues r).tail) := by
  refine h.mono (prefix_refl _) fun c r' ↦ ⟨c, (refl _).append ?_⟩
  by_cases heq : r' = r
  · subst heq
    rw [setQueue_self]
    exact tail_sublist _
  · rw [setQueue_of_ne s heq]

/-- An event that `consume` pops is held. -/
theorem FlowInv.pop (h : FlowInv s) {recorders : List Nat} {events queue : List Stamped}
    {result : SessionEvents} {event : Stamped}
    (hc : s.calls c = .consuming (r :: recorders) events result)
    (hq : s.queues r = event :: queue) :
    FlowInv ((s.setQueue r queue).setCall c
      (.consuming (r :: recorders) (events ++ [event]) result)) := by
  refine h.mono (prefix_refl _) fun c' r' ↦ ⟨c', ?_⟩
  rw [flow, flow, setCall_log, setQueue_log, setCall_queues]
  by_cases hr : r' = r
  · subst hr
    rw [setQueue_self, hq]
    by_cases heq : c' = c
    · subst heq
      rw [hc]
      simp [ControlCall.held]
    · rw [setCall_of_ne _ heq]
      exact (refl _).append (sublist_cons_self ..)
  · rw [setQueue_of_ne s hr]
    by_cases heq : c' = c
    · subst heq
      rw [hc]
      simp [ControlCall.held, Ne.symm hr]
    · rw [setCall_of_ne _ heq, setQueue_calls]

end Hisab.Profiler
