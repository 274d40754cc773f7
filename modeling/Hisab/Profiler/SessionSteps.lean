import Hisab.Profiler.SessionIsolation

/-!
# Every step keeps sessions apart isolated

One lemma for each operation of the recorder, and from them the guarantees of every run in
which no call changes the level while another one is under way.
-/

namespace Hisab.Profiler

open Base List SessionState ControlCall List.Sublist

variable {s s' : SessionState} {entry : SessionEntry} {c r t : Nat} {call : ControlCall}
  {owner : Option Nat}

/-! ### Alone -/

theorem Alone.setCall (h : Alone s owner) (hcall : call.underWay = false) :
    Alone (s.setCall c call) owner := fun c' hc' ↦ by
  by_cases heq : c' = c
  · subst heq
    rw [setCall_self, hcall] at hc'
    cases hc'
  · rw [setCall_of_ne s heq] at hc'
    exact h c' hc'

/-- The call that is under way goes on. -/
theorem Alone.goesOn (h : Alone s (some c)) : Alone (s.setCall c call) (some c) :=
  fun c' hc' ↦ by
    by_cases heq : c' = c
    · rw [heq]
    · rw [setCall_of_ne s heq] at hc'
      exact h c' hc'

/-- The call that is under way ends. -/
theorem Alone.ends (h : Alone s (some c)) (hcall : call.underWay = false) :
    Alone (s.setCall c call) none := fun c' hc' ↦ by
  by_cases heq : c' = c
  · subst heq
    rw [setCall_self, hcall] at hc'
    cases hc'
  · rw [setCall_of_ne s heq] at hc'
    exact absurd (Option.some.inj (h c' hc')).symm heq

/-- A call begins to be under way. -/
theorem Alone.begins (h : Alone s none) : Alone (s.setCall c call) (some c) := fun c' hc' ↦ by
  by_cases heq : c' = c
  · rw [heq]
  · rw [setCall_of_ne s heq] at hc'
    cases h c' hc'

/-- Without a call under way there is no owner. -/
theorem OwnerPhase.none_of_apart (h : OwnerPhase s owner)
    (hapart : ∀ c, (s.calls c).underWay = false) : owner = none := by
  cases h with
  | disabled _ _ | enabled _ _ _ => rfl
  | @starting c hc => cases hc ▸ hapart c
  | @clearing c _ _ hc | @stopping c hc | @consuming c _ _ _ hc => cases hc ▸ hapart c

namespace SessionInv

/-- The owner is the call that is under way. -/
theorem owner_of_underWay (h : SessionInv s) (hc : (s.calls c).underWay = true) :
    Alone s (some c) ∧ OwnerPhase s (some c) := by
  obtain ⟨owner, halone, hphase⟩ := h.owner
  obtain rfl := halone c hc
  exact ⟨halone, hphase⟩

theorem initial : SessionInv {} where
  log := by constructor <;> simp
  producers := ⟨fun _ _ ↦ rfl, fun t ht ↦ nomatch ht⟩
  flow c r := ⟨List.Pairwise.nil, fun event he ↦ nomatch he⟩
  returned c₂ k result hk := nomatch hk
  owner := ⟨none, fun c hc ↦ (nomatch hc), .disabled rfl rfl⟩

/-! ### The threads that record -/

theorem register (h : SessionInv s) (ht : s.producers t = .unregistered) :
    SessionInv (s.register t) where
  log := h.log.advance rfl (fun _ ↦ Nat.le_refl _) h.log.level
  producers := by
    refine ⟨fun t' ht' ↦ ?_, fun t' ht' ↦ ?_⟩
    · by_cases heq : t' = t
      · rw [heq]
        exact h.producers.unregistered t ht
      · rw [register_of_ne s heq] at ht'
        exact h.producers.unregistered t' ht'
    · by_cases heq : t' = t
      · rw [heq]
        exact mem_append_right _ (mem_singleton_self _)
      · rw [register_of_ne s heq] at ht'
        refine mem_append_left _ (mem_filter.mpr ⟨h.producers.live t' ht', ?_⟩)
        simpa using heq
  flow := h.flow.mono (prefix_refl _) fun c r ↦ ⟨c, refl _⟩
  returned := h.returned
  owner := by
    obtain ⟨owner, halone, hphase⟩ := h.owner
    refine ⟨owner, halone, hphase.registry rfl rfl rfl rfl rfl fun _ r ↦ ?_⟩
    have hmem : r ∈ (s.register t).registered ↔ r ∈ s.registered ∨ r = t := by
      rw [registered, SessionState.register, map_append, mem_append]
      simp only [registered, map_singleton, mem_singleton, mem_map, mem_filter]
      constructor
      · rintro (⟨x, ⟨hx, -⟩, hr⟩ | rfl)
        · exact .inl ⟨x, hx, hr⟩
        · exact .inr rfl
      · rintro (⟨x, hx, hr⟩ | rfl)
        · by_cases heq : x.1 = t
          · exact .inr (hr.symm.trans heq)
          · exact .inl ⟨x, ⟨hx, by simpa using heq⟩, hr⟩
        · exact .inr rfl
    refine ⟨fun hr ↦ ?_, fun hr ↦ hmem.mpr (.inl hr)⟩
    rcases hmem.mp hr with hr | rfl
    · exact .inl hr
    · exact .inr (h.producers.unregistered _ ht)

theorem record (h : SessionInv s) (e : Event) (ht : s.producers t = .live) :
    SessionInv (s.record t e) where
  log :=
    have hqueued : LogInv (s.setQueue t (s.queues t ++ [(s.log.length, e)])) :=
      h.log.advance rfl (fun _ ↦ Nat.le_refl _) h.log.level
    hqueued.logged trivial
  producers := by
    refine ⟨fun t' ht' ↦ ?_, h.producers.live⟩
    have hne : t' ≠ t := fun heq ↦ by
      have ht'' : s.producers t' = .unregistered := ht'
      rw [heq, ht] at ht''
      cases ht''
    rw [SessionState.record, logged_queues, setQueue_of_ne s hne]
    exact h.producers.unregistered t' ht'
  flow := h.flow.record t e
  returned := h.returned.logged nofun nofun
  owner := by
    obtain ⟨owner, halone, hphase⟩ := h.owner
    exact ⟨owner, halone, hphase.record (h.producers.mem_registered ht)⟩

theorem unregister (h : SessionInv s) (t : Nat) : SessionInv (s.unregister t) where
  log := h.log.advance rfl (fun _ ↦ Nat.le_refl _) h.log.level
  producers := by
    refine ⟨fun t' ht' ↦ ?_, fun t' ht' ↦ ?_⟩
    · by_cases heq : t' = t
      · rw [heq, unregister_self] at ht'
        cases ht'
      · rw [unregister_of_ne s heq] at ht'
        exact h.producers.unregistered t' ht'
    · by_cases heq : t' = t
      · rw [heq, unregister_self] at ht'
        cases ht'
      · rw [unregister_of_ne s heq] at ht'
        have hmem := h.producers.live t' ht'
        rw [SessionState.unregister]
        split
        · exact mem_map.mpr ⟨(t', true), hmem, if_neg heq⟩
        · exact mem_filter.mpr ⟨hmem, by simpa using heq⟩
  flow := h.flow.mono (prefix_refl _) fun c r ↦ ⟨c, refl _⟩
  returned := h.returned
  owner := by
    obtain ⟨owner, halone, hphase⟩ := h.owner
    refine ⟨owner, halone, hphase.registry rfl rfl rfl rfl rfl fun hr r ↦ ?_⟩
    have hsame : (s.unregister t).registered = s.registered := by
      rw [registered, SessionState.unregister]
      rw [if_pos hr, map_map]
      refine map_congr_left fun x _ ↦ ?_
      rw [Function.comp_apply]
      split
      · next heq => exact heq.symm
      · rfl
    rw [hsame]
    exact ⟨.inl, id⟩

/-! ### Calls that are not under way -/

/-- A call that is not under way moves on, with an entry in the log. -/
theorem neutral (h : SessionInv s) (hprogress : (s.calls c).progress ≤ call.progress)
    (hc : (s.calls c).underWay = false) (hcall : call.underWay = false)
    (hlevel : ∀ level, call = .startCalled level → 0 ≤ level)
    (hok : EntryOk (s.setCall c call) entry) (hchanges : entry.changes = false)
    (hrecorded : ∀ r e, entry ≠ .recorded r e)
    (hreturned : ∀ c₂ result, entry = .stopReturned c₂ result → result = [] ∧ .stopped c₂ ∉ s.log) :
    SessionInv ((s.setCall c call).logged entry) where
  log := (h.log.setCall hprogress hlevel).logged hok
  producers := ⟨h.producers.unregistered, h.producers.live⟩
  flow := h.flow.setCall_logged (fun r ↦ held_of_not_underWay hcall)
    fun c₂ result heq ↦ (hreturned c₂ result heq).1
  returned := h.returned.logged (fun c₂ heq ↦ by rw [heq] at hchanges; cases hchanges)
    fun c₂ result heq c₁ i j hm ↦ absurd (mem_of_getElem? hm.stopped) (hreturned c₂ result heq).2
  owner := by
    obtain ⟨owner, halone, hphase⟩ := h.owner
    exact ⟨owner, halone.setCall hcall, hphase.neutral hc hchanges hrecorded⟩

theorem start (h : SessionInv s) (hc : s.calls c = .absent) (level : Int) :
    SessionInv ((s.setCall c (.startCalled (if level > 0 then level else 0))).logged
      (.startCalled c)) := by
  refine h.neutral (by simp [hc, progress]) (by simp [hc, underWay]) rfl
    (fun l heq ↦ ?_) (fun hmem ↦ ?_) rfl (fun _ _ heq ↦ nomatch heq) fun _ _ heq ↦ nomatch heq
  · rw [← startCalled.inj heq]
    split <;> omega
  · have := h.log.started c hmem
    simp [hc, progress] at this

theorem stop (h : SessionInv s) (hc : s.calls c = .absent) :
    SessionInv ((s.setCall c .stopCalled).logged (.stopCalled c)) := by
  refine h.neutral (by simp [hc, progress]) (by simp [hc, underWay]) rfl
    (fun _ heq ↦ nomatch heq) (fun hmem ↦ ?_) rfl (fun _ _ heq ↦ nomatch heq)
    fun _ _ heq ↦ nomatch heq
  have := h.log.stopped c hmem
  simp [hc, progress] at this

/-! ### The calls that change the level -/

/-- The compare-and-exchange of `start`. -/
theorem compareExchange (h : SessionInv s) {level : Int} (hc : s.calls c = .startCalled level)
    (hapart : s.level = kTracingDisabled → ∀ c', (s.calls c').underWay = false) :
    SessionInv (s.compareExchange c level) := by
  unfold SessionState.compareExchange
  by_cases hlevel : s.level = kTracingDisabled
  · rw [if_pos hlevel]
    obtain ⟨owner, halone, hphase⟩ := h.owner
    obtain rfl := hphase.none_of_apart (hapart hlevel)
    have hset : LogInv { s with level := level } :=
      h.log.advance rfl (fun _ ↦ Nat.le_refl _) h.log.level
    have hpos : level ≠ kTracingDisabled := by
      have := h.log.level c level hc
      unfold kTracingDisabled
      omega
    exact {
      log := (hset.setCall (by simp [hc, progress]) fun _ heq ↦ by cases heq).logged
        (by simp [EntryOk, progress])
      producers := ⟨h.producers.unregistered, h.producers.live⟩
      flow := FlowInv.setCall_logged
        (h.flow.mono (prefix_refl _) fun c r ↦ ⟨c, refl _⟩)
        (fun _ ↦ rfl) fun _ _ heq ↦ by cases heq
      returned := h.returned.logged (fun _ h ↦ by cases h) fun _ _ h ↦ by cases h
      owner := by
        refine ⟨some c, Alone.begins halone, .starting
          (setCall_self _) hpos ?_ fun c₁ i hcur ↦ ?_⟩
        · cases hphase with
          | disabled _ hr => exact hr
          | enabled hd _ _ => exact absurd hlevel hd
        · -- an earlier `start` is followed by this entry
          rcases getElem?_snoc.mp hcur.started with hs | ⟨-, heq⟩
          · have := (hcur.unchanged s.log.length c (lt_of_getElem? hs) (by simp)).1
            simp at this
          · exact (SessionEntry.started.inj heq).symm }
  · rw [if_neg hlevel]
    exact h.neutral (by simp [hc, progress]) (by simp [hc, underWay]) rfl
      (fun _ heq ↦ by cases heq) (by simp [EntryOk, progress]) rfl
      (fun _ _ heq ↦ by cases heq) fun _ _ heq ↦ by cases heq

/-- The exchange of `stop`. -/
theorem exchange (h : SessionInv s) (hc : s.calls c = .stopCalled)
    (hapart : s.level ≠ kTracingDisabled → ∀ c', (s.calls c').underWay = false) :
    SessionInv (s.exchange c) := by
  have hnot : .stopped c ∉ s.log := fun hmem ↦ by
    have := h.log.stopped c hmem
    simp [hc, progress] at this
  unfold SessionState.exchange
  by_cases hlevel : s.level ≠ kTracingDisabled
  · rw [if_pos hlevel]
    obtain ⟨owner, halone, hphase⟩ := h.owner
    obtain rfl := hphase.none_of_apart (hapart hlevel)
    have hset : LogInv { s with level := kTracingDisabled } :=
      h.log.advance rfl (fun _ ↦ Nat.le_refl _) h.log.level
    exact {
      log := (hset.setCall (by simp [hc, progress]) fun _ heq ↦ by cases heq).logged
        (by simp [EntryOk, progress])
      producers := ⟨h.producers.unregistered, h.producers.live⟩
      flow := FlowInv.setCall_logged
        (h.flow.mono (prefix_refl _) fun c r ↦ ⟨c, refl _⟩)
        (fun _ ↦ rfl) fun _ _ heq ↦ by cases heq
      returned := by
        refine h.returned.logged (fun c₂ heq result hmem ↦ ?_) fun _ _ h ↦ by cases h
        have := h.log.stopReturned c₂ result hmem
        rw [← SessionEntry.stopped.inj heq, hc] at this
        simp [progress] at this
      owner := by
        refine ⟨some c, Alone.begins halone, ?_⟩
        cases hphase with
        | disabled hd _ => exact absurd hd hlevel
        | enabled _ hr hw =>
          refine .stopping (setCall_self _) rfl hr fun c₁ i j hm ↦ ?_
          rcases hm.of_snoc with hm | ⟨rfl, -, hcur⟩
          · exact absurd (mem_of_getElem? hm.stopped) hnot
          · exact (hw c₁ i hcur).logged (Nat.le_refl _) }
  · rw [if_neg hlevel]
    exact h.neutral (by simp [hc, progress]) (by simp [hc, underWay]) rfl
      (fun _ heq ↦ by cases heq) (by simp [EntryOk, progress]) rfl
      (fun _ _ heq ↦ by cases heq) fun c₂ result heq ↦ by
        cases heq
        exact ⟨rfl, hnot⟩

/-! ### The call under way -/

variable (s') in
/-- The call under way moves on without an entry in the log. -/
theorem goesOn (h : SessionInv s) (hc : (s.calls c).underWay = true)
    (hprogress : call.progress = 2) (hlog : s'.log = s.log) (hcalls : s'.calls = s.calls)
    (hproducers : ProducerInv s') (hflow : FlowInv (s'.setCall c call))
    (hphase : Alone s (some c) → OwnerPhase s (some c) → OwnerPhase (s'.setCall c call) (some c)) :
    SessionInv (s'.setCall c call) where
  log := (h.log.advance hlog (fun c' ↦ Nat.le_of_eq (by rw [hcalls])) (by rw [hcalls]; exact h.log.level)).setCall
    (Nat.le_of_eq (by rw [hcalls, underWay_iff.mp hc, hprogress]))
    fun level heq ↦ by rw [heq] at hprogress; cases hprogress
  producers := ⟨hproducers.unregistered, hproducers.live⟩
  flow := hflow
  returned := by
    rw [setCall_log, hlog]
    exact h.returned
  owner := by
    obtain ⟨halone, hown⟩ := h.owner_of_underWay hc
    have halone' : Alone s' (some c) := fun c' hc' ↦ halone c' (hcalls ▸ hc')
    exact ⟨some c, halone'.goesOn, hphase halone hown⟩

theorem startRecording (h : SessionInv s) (hc : s.calls c = .startRecording) {order : List Nat}
    (horder : order.Perm s.registered) : SessionInv (s.startRecording c order) := by
  refine h.goesOn { s with recording := true } (by rw [hc]; rfl) rfl rfl rfl
    ⟨h.producers.unregistered, h.producers.live⟩ ?_ fun halone hown ↦ ?_
  · exact FlowInv.setCall
      (h.flow.mono (prefix_refl _) fun c r ↦ ⟨c, refl _⟩) fun _ ↦ .inr rfl
  · cases hown with
    | starting _ hd hr hmine =>
      refine .clearing (setCall_self _) hd rfl fun c₁ i hcur ↦
        ⟨hmine c₁ i hcur, fun r hr hnot ↦ absurd (horder.mem_iff.mpr hr) hnot,
          fun r rs m _ hleft ↦ nomatch hleft⟩
    | clearing hc' | stopping hc' | consuming hc' => cases hc.symm.trans hc'

theorem stopRecording (h : SessionInv s) (hc : s.calls c = .stopRecording) {order : List Nat}
    (horder : order.Perm s.registered) : SessionInv (s.stopRecording c order) := by
  refine h.goesOn { s with threads := s.threads.filter Prod.snd, recording := false }
    (by rw [hc]; rfl) rfl rfl rfl ⟨h.producers.unregistered, fun t ht ↦
      mem_filter.mpr ⟨h.producers.live t ht, rfl⟩⟩ ?_ fun halone hown ↦ ?_
  · exact FlowInv.setCall
      (h.flow.mono (prefix_refl _) fun c r ↦ ⟨c, refl _⟩)
      fun r ↦ .inr (by cases order <;> simp [ControlCall.held, eventsOf])
  · cases hown with
    | stopping _ hd hr hw =>
      refine .consuming (setCall_self _) hd rfl fun c₁ i j hm ↦
        (hw c₁ i j hm).congr fun r event ↦ ?_
      have hheld : ControlCall.held (.consuming order [] []) r = [] := by
        cases order <;> simp [ControlCall.held, eventsOf]
      rw [draining, hheld]
      simp only [horder.mem_iff]
      rfl
    | starting hc' | clearing hc' | consuming hc' => cases hc.symm.trans hc'

variable {recorders : List Nat}

/-- What holds while a queue is cleared. -/
theorem clearing_inv (h : SessionInv s) {left : Option Nat}
    (hc : s.calls c = .clearing recorders left) : s.level ≠ kTracingDisabled ∧
      s.recording = true ∧ ∀ c₁ i, CurrentStart s.log c₁ i → c₁ = c ∧ s.Cleared recorders left i := by
  obtain ⟨-, hown⟩ := h.owner_of_underWay (by rw [hc]; rfl)
  cases hown with
  | clearing hc' hd hr hcleared =>
    obtain ⟨rfl, rfl⟩ := clearing.inj (hc.symm.trans hc')
    exact ⟨hd, hr, hcleared⟩
  | starting hc' | stopping hc' | consuming hc' => cases hc.symm.trans hc'

theorem clearStep (h : SessionInv s) {left : Option Nat} (hc : s.calls c = .clearing recorders left)
    : SessionInv (s.clearStep c recorders left) := by
  obtain ⟨hd, hr, hcleared⟩ := h.clearing_inv hc
  have hway : (s.calls c).underWay = true := by rw [hc]; rfl
  rcases recorders with _ | ⟨r, rs⟩
  · obtain ⟨halone, -⟩ := h.owner_of_underWay hway
    exact {
      log := (h.log.setCall (by simp [hc, progress]) fun _ heq ↦ by cases heq).logged
        (by simp [EntryOk, progress])
      producers := ⟨h.producers.unregistered, h.producers.live⟩
      flow := h.flow.setCall_logged (fun _ ↦ rfl) fun _ _ heq ↦ by cases heq
      returned := h.returned.logged (fun _ h ↦ by cases h) fun _ _ h ↦ by cases h
      owner := by
        refine ⟨none, halone.ends rfl, .enabled hd hr fun c₁ i hcur ↦ ?_⟩
        have hcur' := hcur.of_snoc rfl
        obtain ⟨rfl, hout, -⟩ := hcleared c₁ i hcur'
        refine ⟨fun r event he ↦ ?_, fun b hb n r e hbn hnj hn ↦ ?_⟩
        · unfold queued at he
          split at he
          · next hmem => exact hout r hmem (not_mem_nil) event he
          · cases he
        · -- the call has not returned before
          rcases getElem?_snoc.mp hb with hb | ⟨rfl, -⟩
          · have := h.log.startReturned c₁ true (mem_of_getElem? hb)
            simp [hc, progress] at this
          · have hlen : (s.clearStep c₁ [] left).log.length = s.log.length + 1 := by
              simp [clearStep]
            simp only [setCall_log] at hbn
            omega }
  rcases left with _ | _ | m
  · refine h.goesOn s hway rfl rfl rfl h.producers (h.flow.setCall fun _ ↦ .inr rfl)
      fun _ _ ↦ .clearing (setCall_self _) hd hr fun c₁ i hcur ↦ ?_
    obtain ⟨hmine, hout, -⟩ := hcleared c₁ i hcur
    refine ⟨hmine, hout, fun r' rs' m hrs hleft event he ↦ ?_⟩
    cases hrs
    rw [← Option.some.inj hleft, setCall_queues, drop_length] at he
    cases he
  · refine h.goesOn s hway rfl rfl rfl h.producers (h.flow.setCall fun _ ↦ .inr rfl)
      fun _ _ ↦ .clearing (setCall_self _) hd hr fun c₁ i hcur ↦ ?_
    obtain ⟨hmine, hout, hin⟩ := hcleared c₁ i hcur
    refine ⟨hmine, fun r' hmem hnot event he ↦ ?_, fun r' rs' m _ hleft ↦ by cases hleft⟩
    by_cases heq : r' = r
    · subst heq
      exact hin r' rs 0 rfl rfl event he
    · exact hout r' hmem (fun hr' ↦ (mem_cons.mp hr').elim heq hnot) event he
  · refine h.goesOn (s.setQueue r (s.queues r).tail) hway rfl rfl rfl
      ⟨fun t ht ↦ ?_, h.producers.live⟩ ((h.flow.drop r).setCall fun _ ↦ .inr rfl)
      fun _ _ ↦ .clearing (setCall_self _) hd hr fun c₁ i hcur ↦ ?_
    · by_cases heq : t = r
      · subst heq
        rw [setQueue_self, h.producers.unregistered t ht]
        rfl
      · rw [setQueue_of_ne s heq]
        exact h.producers.unregistered t ht
    · obtain ⟨hmine, hout, hin⟩ := hcleared c₁ i hcur
      refine ⟨hmine, fun r' hmem hnot event he ↦ ?_, fun r' rs' m' hrs hleft event he ↦ ?_⟩
      · have hne : r' ≠ r := fun heq ↦ hnot (heq ▸ mem_cons_self ..)
        rw [setCall_queues, setQueue_of_ne s hne] at he
        exact hout r' hmem hnot event he
      · cases hrs
        rw [← Option.some.inj hleft, setCall_queues, setQueue_self,
          ← drop_one, drop_drop, Nat.add_comm] at he
        exact hin r rs (m + 1) rfl rfl event he

variable {events : List Stamped} {result : SessionEvents}

/-- What holds while a queue is consumed. -/
theorem consuming_inv (h : SessionInv s) (hc : s.calls c = .consuming recorders events result) :
    s.level = kTracingDisabled ∧ s.recording = false ∧ ∀ c₁ i j, Matching s.log c₁ c i j →
      Window s.log c₁ i j (s.draining (.consuming recorders events result) recorders) := by
  obtain ⟨-, hown⟩ := h.owner_of_underWay (by rw [hc]; rfl)
  cases hown with
  | consuming hc' hd hr hw =>
    obtain ⟨rfl, rfl, rfl⟩ := consuming.inj (hc.symm.trans hc')
    exact ⟨hd, hr, hw⟩
  | starting hc' | clearing hc' | stopping hc' => cases hc.symm.trans hc'

theorem mem_draining_cons {event : Stamped} {r' : Nat} :
    event ∈ s.draining (.consuming (r :: recorders) events result) (r :: recorders) r' ↔
      event ∈ eventsOf result r' ∨ r' = r ∧ event ∈ events ∨
        (r' = r ∨ r' ∈ recorders) ∧ event ∈ s.queues r' := by
  rw [draining, ControlCall.held, mem_append, mem_append, or_assoc]
  refine or_congr Iff.rfl (or_congr ?_ ?_)
  · by_cases heq : r' = r
    · simp [heq]
    · simp [heq, Ne.symm heq]
  · by_cases hmem : r' ∈ r :: recorders
    · simp [mem_cons.mp hmem]
    · rw [mem_cons] at hmem
      simp [hmem]

theorem eventsOf_push {r' : Nat} :
    eventsOf (if events = [] then result else result ++ [(r, events)]) r' =
      eventsOf result r' ++ if r = r' then events else [] := by
  by_cases hnil : events = []
  · simp [hnil]
  · rw [if_neg hnil]
    by_cases heq : r = r'
    · simp [heq, eventsOf]
    · simp [heq, eventsOf]

theorem consumeStep (h : SessionInv s) (hc : s.calls c = .consuming recorders events result) :
    SessionInv (s.consumeStep c events result recorders) := by
  obtain ⟨hd, hr, hw⟩ := h.consuming_inv hc
  have hway : (s.calls c).underWay = true := by rw [hc]; rfl
  cases recorders with
  | nil =>
    obtain ⟨halone, -⟩ := h.owner_of_underWay hway
    have hheld : (s.calls c).held = eventsOf result := by
      funext r
      rw [hc]
      exact append_nil _
    exact {
      log := (h.log.setCall (by simp [hc, progress]) fun _ heq ↦ by cases heq).logged
        (by simp [EntryOk, progress])
      producers := ⟨h.producers.unregistered, h.producers.live⟩
      flow := by
        refine h.flow.mono (prefix_append ..) fun c' r ↦ ⟨c, ?_⟩
        -- what the call held is now returned, and no other call holds anything
        have hnone : ((s.consumeStep c events result []).calls c').held r = [] := by
          refine held_of_not_underWay ?_
          by_contra hcon
          cases halone.ends rfl c' (Bool.not_eq_false _ ▸ hcon)
        have hreturned : returnedOf (s.consumeStep c events result []).log r =
            returnedOf s.log r ++ eventsOf result r := by
          rw [consumeStep, logged_log, returnedOf_snoc]
          exact congrArg _ (append_nil _)
        rw [SessionState.flow, hnone, hreturned, append_nil, SessionState.flow, hheld]
        exact refl _
      returned := by
        refine h.returned.logged (fun _ h ↦ by cases h) fun c₂ result' heq c₁ i j hm ↦ ?_
        cases heq
        refine (hw c₁ i j hm).congr fun r event ↦ ?_
        rw [draining, ← hc, hheld, if_neg not_mem_nil, append_nil]
      owner := ⟨none, halone.ends rfl, .disabled hd hr⟩ }
  | cons r rs =>
    cases hq : s.queues r with
    | cons event queue =>
      have hstep : s.consumeStep c events result (r :: rs) = (s.setQueue r queue).setCall c
          (.consuming (r :: rs) (events ++ [event]) result) := by
        rw [consumeStep, hq]
      rw [hstep]
      refine h.goesOn (s.setQueue r queue) hway rfl rfl rfl ⟨fun t ht ↦ ?_, h.producers.live⟩
        (h.flow.pop hc hq) fun _ _ ↦ .consuming (setCall_self _) hd hr
          fun c₁ i j hm ↦ (hw c₁ i j hm).congr fun r' event' ↦ ?_
      · by_cases heq : t = r
        · subst heq
          have := h.producers.unregistered t ht
          rw [hq] at this
          cases this
        · rw [setQueue_of_ne s heq]
          exact h.producers.unregistered t ht
      · rw [mem_draining_cons, mem_draining_cons]
        by_cases heq : r' = r
        · subst heq
          rw [hq]
          simp [or_assoc]
        · simp [heq]
    | nil =>
      have hstep : s.consumeStep c events result (r :: rs) = s.setCall c
          (.consuming rs [] (if events = [] then result else result ++ [(r, events)])) := by
        rw [consumeStep, hq]
      have hheld : ∀ r', ControlCall.held (.consuming rs []
          (if events = [] then result else result ++ [(r, events)])) r' =
          (s.calls c).held r' := fun r' ↦ by
        rw [hc, ControlCall.held, ControlCall.held, eventsOf_push]
        simp
      rw [hstep]
      refine h.goesOn s hway rfl rfl rfl h.producers (h.flow.setCall fun r' ↦
        .inl (hheld r')) fun _ _ ↦ .consuming (setCall_self _) hd hr
          fun c₁ i j hm ↦ (hw c₁ i j hm).congr fun r' event' ↦ ?_
      rw [draining, hheld r', hc, draining]
      by_cases heq : r' = r
      · subst heq
        simp [hq]
      · simp [heq]

/-! ### All runs -/

theorem advance (h : SessionInv s) {order : List Nat}
    (hapart : s.TakesEffect c → ∀ c', (s.calls c').underWay = false)
    (hs : s.advance c order = some s') : SessionInv s' := by
  unfold SessionState.advance at hs
  cases hc : s.calls c with
  | absent | returned => simp [hc] at hs
  | startCalled level =>
    simp only [hc, Option.some.injEq] at hs
    exact hs ▸ h.compareExchange hc fun hd ↦ hapart (.inl ⟨⟨level, hc⟩, hd⟩)
  | startRecording =>
    simp only [hc, ite_some_iff] at hs
    exact hs.2 ▸ h.startRecording hc hs.1
  | clearing recorders left =>
    simp only [hc, Option.some.injEq] at hs
    exact hs ▸ h.clearStep hc
  | stopCalled =>
    simp only [hc, Option.some.injEq] at hs
    exact hs ▸ h.exchange hc fun hd ↦ hapart (.inr ⟨hc, hd⟩)
  | stopRecording =>
    simp only [hc, ite_some_iff] at hs
    exact hs.2 ▸ h.stopRecording hc hs.1
  | consuming recorders events result =>
    simp only [hc, Option.some.injEq] at hs
    exact hs ▸ h.consumeStep hc

theorem step (h : SessionInv s) {l : SessionStep} (hapart : SessionsApart s l)
    (hs : s.step l = some s') : SessionInv s' := by
  unfold SessionState.step at hs
  cases l with
  | register t =>
    simp only [ite_some_iff] at hs
    exact hs.2 ▸ h.register hs.1
  | record t e =>
    simp only [ite_some_iff] at hs
    exact hs.2 ▸ h.record e hs.1
  | exit t =>
    simp only [ite_some_iff] at hs
    exact hs.2 ▸ h.unregister t
  | start c level =>
    simp only [ite_some_iff] at hs
    exact hs.2 ▸ h.start hs.1 level
  | stop c =>
    simp only [ite_some_iff] at hs
    exact hs.2 ▸ h.stop hs.1
  | advance c order => exact h.advance hapart hs

/-- The invariant gives the guarantees. -/
theorem guarantees (h : SessionInv s) : s.Guarantees where
  exclusive c c' r hc hc' := by
    have hway : ∀ {c}, (s.calls c).queue? = some r → (s.calls c).underWay = true := fun {c} hq ↦ by
      cases hcall : s.calls c <;> rw [hcall] at hq <;> first | rfl | cases hq
    obtain ⟨owner, halone, -⟩ := h.owner
    exact Option.some.inj ((halone c (hway hc)).symm.trans (halone c' (hway hc')))
  returned_once r := by
    have hsub : (returnedOf s.log r).Sublist (s.flow 0 r) :=
      (sublist_append_left ..).trans (sublist_append_left ..)
    exact (h.flow 0 r).1.sublist (hsub.map Prod.fst)
  isolated c₁ c₂ i j k result hm hk := by
    have hw := h.returned c₂ k result hk c₁ i j hm
    have hsub : ∀ r, (eventsOf result r).Sublist (s.flow 0 r) := fun r ↦ by
      obtain ⟨front, back, hlog⟩ := append_of_mem (mem_of_getElem? hk)
      have hflat : returnedOf s.log r =
          returnedOf front r ++ (eventsOf result r ++ returnedOf back r) := by
        rw [hlog, returnedOf, flatMap_append]
        rfl
      rw [SessionState.flow, hflat]
      exact ((sublist_append_left ..).trans (sublist_append_right ..)).trans
        ((sublist_append_left ..).trans (sublist_append_left ..))
    refine ⟨fun r ↦ (h.flow 0 r).1.sublist ((hsub r).map Prod.fst), fun r n e hmem ↦ ⟨?_, ?_⟩, ?_⟩
    · exact (h.flow 0 r).2 (n, e) ((hsub r).subset hmem)
    · exact fun a ha ↦ Nat.lt_trans (h.log.startOrder c₁ a i ha hm.started) (hw.later r _ hmem)
    · exact fun b d hb hdc n r e hbn hnd hn ↦ hw.complete b hb n r e hbn
        (Nat.lt_trans hnd (h.log.stopOrder c₂ d j hdc hm.stopped)) hn

end SessionInv

/-- In every run in which no `start` and no `stop` changes the level while another call that
has changed it is under way, no queue has two consumers, no event is returned twice, and
sessions are isolated and lossless. -/
theorem sessions_isolated {s : SessionState}
    (h : (traceRecorder.restrict SessionsApart).Reachable s) : s.Guarantees := by
  refine (h.invariant (I := SessionInv) ?_ ?_).guarantees
  · rintro s rfl
    exact SessionInv.initial
  · rintro s l s' hinv ⟨hs, hapart⟩
    exact hinv.step hapart hs

/-- The steps that do not change the level. -/
def SessionState.quietStep (s : SessionState) : SessionStep → Option SessionState
  | .advance c order =>
    match s.calls c with
    | .startCalled _ | .stopCalled => none
    | _ => s.step (.advance c order)
  | l => s.step l

/-- A session that returns its only event. -/
theorem session_returns_event : ∃ s : SessionState,
    s.log.getLast? = some (.stopReturned 1 [(7, [(3, ⟨"work", 20, 30⟩)])]) ∧ s.Guarantees := by
  let M := traceRecorder.restrict SessionsApart
  have hquiet : ∀ s l s', s.quietStep l = some s' → M.step s l s' := by
    intro s l s' hs
    cases l with
    | advance c order =>
      cases hc : s.calls c with
      | startCalled level | stopCalled => simp [SessionState.quietStep, hc] at hs
      | _ =>
        simp only [SessionState.quietStep, hc] at hs
        refine ⟨hs, fun htakes ↦ ?_⟩
        rcases htakes with ⟨⟨level, hcall⟩, -⟩ | ⟨hcall, -⟩ <;> cases hc.symm.trans hcall
    | _ => exact ⟨hs, trivial⟩
  have heffect : ∀ s c order s', s.advance c order = some s' →
      (∀ c', (s.calls c').underWay = false) → M.Run s [.advance c order] s' :=
    fun s c order s' hs hapart ↦ .single ⟨hs, fun _ ↦ hapart⟩
  have hcalled : M.Run {} [.start 0 1] _ := .of_foldlM hquiet rfl
  have hstarted := hcalled.append (heffect _ 0 [] _ rfl fun c ↦ by
    rcases c with _ | n <;> rfl)
  have hsession := hstarted.append (.of_foldlM hquiet (show foldlM SessionState.quietStep _
    [.advance 0 [], .advance 0 [], .register 7, .record 7 ⟨"work", 20, 30⟩, .stop 1] = some _
      from rfl))
  have hstopped := hsession.append (heffect _ 1 [] _ rfl fun c ↦ by
    rcases c with _ | _ | n <;> rfl)
  have hreturned := hstopped.append (.of_foldlM hquiet (show foldlM SessionState.quietStep _
    [.advance 1 [7], .advance 1 [], .advance 1 [], .advance 1 []] = some _ from rfl))
  exact ⟨_, rfl, sessions_isolated ⟨_, _, rfl, hreturned⟩⟩

/-- A `start` whose call overlaps the `stop` before it: both use the same queue. -/
theorem overlapping_sessions_share_queue : ¬ ∀ s, traceRecorder.Reachable s → s.Guarantees := by
  intro hall
  obtain ⟨s, hfold, hstop, hstart⟩ : ∃ s : SessionState,
      foldlM step {} [.register 0, .start 0 1, .advance 0 [], .advance 0 [0],
        .advance 0 [], .advance 0 [], .advance 0 [], .stop 1, .advance 1 [], .start 2 1,
        .advance 2 [], .advance 2 [0], .advance 1 [0]] = some s ∧
      (s.calls 1).queue? = some 0 ∧ (s.calls 2).queue? = some 0 := ⟨_, rfl, rfl, rfl⟩
  have hrun : traceRecorder.Run {} _ s := .of_foldlM (fun _ _ _ h ↦ h) hfold
  cases (hall s ⟨_, _, rfl, hrun⟩).exclusive 1 2 0 hstop hstart

end Hisab.Profiler
