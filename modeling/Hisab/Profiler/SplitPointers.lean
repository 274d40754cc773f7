import Hisab.Profiler.SplitPairing

/-!
# Pairing through pointers

The objects of the result and the pointers that `SplitEventTracker` keeps. As long as the
vector copies its elements only when no pointer into them is kept, the pointers denote the
marked cells and `consume` gives the paired events; a copy made while one is kept leaves a
pointer to an object that is gone, which `HandleCrossThreadEvents` then reads.
-/

namespace Hisab.Profiler

open Function List SplitEventTracker

variable {h h' : EventHeap} {p : Nat} {ps ps' : List Nat} {e : Event} {es es' : List Event}
  {c : EventCell} {cs cs' : List EventCell} {tracker : SplitEventTracker}

/-! ### Objects -/

/-- The objects of that identities, in order, are these events. -/
def Holds (h : EventHeap) (ps : List Nat) (es : List Event) : Prop :=
  List.Forall₂ (fun p e ↦ h.objects p = some e) ps es

theorem Holds.nil : Holds h [] [] := List.Forall₂.nil

theorem Holds.append (hp : Holds h ps es) (hp' : Holds h ps' es') :
    Holds h (ps ++ ps') (es ++ es') := rel_append hp hp'

theorem Holds.congr (hp : Holds h ps es) (heq : ∀ p ∈ ps, h'.objects p = h.objects p) :
    Holds h' ps es := by
  induction hp with
  | nil => exact .nil
  | @cons p e ps es hobj _ ih =>
    exact .cons ((heq p (mem_cons_self ..)).trans hobj) (ih fun q hq ↦ heq q (mem_cons_of_mem _ hq))

theorem Holds.split (hp : Holds h (ps ++ ps') (es ++ es')) (hlen : ps.length = es.length) :
    Holds h ps es ∧ Holds h ps' es' := by
  have htake := forall₂_take es.length hp
  have hdrop := forall₂_drop es.length hp
  rw [take_left, ← hlen, take_left] at htake
  rw [drop_left, ← hlen, drop_left] at hdrop
  exact ⟨htake, hdrop⟩

theorem Holds.readAll (hp : Holds h ps es) : h.readAll ps = .ok es := by
  induction hp with
  | nil => rfl
  | cons hobj _ ih =>
    simp only [EventHeap.readAll, EventHeap.read, hobj, ih, bind, Except.bind, pure, Except.pure]

theorem objects_allocate_of_lt (hp : p < h.next) : (h.allocate es).objects p = h.objects p :=
  if_pos hp

theorem holds_allocated : Holds (h.allocate es) (h.allocated es) es := by
  refine forall₂_iff_get.mpr ⟨length_range' .., fun i hi hi' ↦ ?_⟩
  have hget : (h.allocated es).get ⟨i, hi⟩ = h.next + i := by simp [EventHeap.allocated]
  have hnew : (h.allocate es).objects (h.next + i) = es[h.next + i - h.next]? := if_neg (by omega)
  rw [hget, hnew, Nat.add_sub_cancel_left]
  exact getElem?_eq_getElem hi'

theorem mem_allocated : p ∈ h.allocated es ↔ h.next ≤ p ∧ p < (h.allocate es).next := by
  rw [EventHeap.allocated, mem_range'_1, EventHeap.allocate]

/-! ### Marked cells -/

/-- The identities of the marked cells. -/
def marked : List Nat → List EventCell → List Nat
  | p :: ps, c :: cs => if c.2 then p :: marked ps cs else marked ps cs
  | _, _ => []

theorem marked_append (hlen : ps.length = cs.length) :
    marked (ps ++ ps') (cs ++ cs') = marked ps cs ++ marked ps' cs' := by
  induction ps generalizing cs with
  | nil =>
    obtain rfl := length_eq_zero_iff.mp hlen.symm
    rfl
  | cons p ps ih =>
    cases cs with
    | nil => cases hlen
    | cons c cs =>
      rw [cons_append, cons_append, marked, marked, ih (Nat.succ.inj hlen)]
      split <;> rfl

theorem marked_subset : marked ps cs ⊆ ps := by
  induction ps generalizing cs with
  | nil => cases cs <;> exact nil_subset _
  | cons p ps ih =>
    cases cs with
    | nil => exact nil_subset _
    | cons c cs =>
      rw [marked]
      split
      · exact cons_subset_cons _ ih
      · exact List.Subset.trans ih (subset_cons_self ..)

theorem marked_eq_nil (hlen : ps.length = cs.length) :
    marked ps cs = [] ↔ ∀ c ∈ cs, c.2 = false := by
  induction ps generalizing cs with
  | nil =>
    obtain rfl := length_eq_zero_iff.mp hlen.symm
    simp [marked]
  | cons p ps ih =>
    cases cs with
    | nil => cases hlen
    | cons c cs =>
      rw [marked, forall_mem_cons, ← ih (Nat.succ.inj hlen)]
      cases hc : c.2 <;> simp

/-- The objects are the cells, and the pointers that are kept are those of the marked ones. -/
structure Live (h : EventHeap) (ends ps : List Nat) (cs : List EventCell) : Prop where
  holds : Holds h ps (cs.map Prod.fst)
  nodup : ps.Nodup
  fresh : ∀ p ∈ ps, p < h.next
  ends : ends = marked ps cs

namespace Live

variable {ends : List Nat}

theorem length_eq (hl : Live h ends ps cs) : ps.length = cs.length := by
  have := hl.holds.length_eq
  rwa [length_map] at this

/-- A new object is a new cell. -/
theorem push (hl : Live h ends ps cs) (c : EventCell) (hnext : h'.next = h.next + 1)
    (hnew : h'.objects h.next = some c.1)
    (hold : ∀ p < h.next, h'.objects p = h.objects p) :
    Live h' (if c.2 then ends ++ [h.next] else ends) (ps ++ [h.next]) (cs ++ [c]) where
  holds := by
    rw [map_append]
    refine (hl.holds.congr fun p hp ↦ hold p (hl.fresh p hp)).append ?_
    exact .cons hnew .nil
  nodup := by
    refine nodup_append.mpr ⟨hl.nodup, nodup_singleton _, fun p hp q hq ↦ ?_⟩
    have := hl.fresh p hp
    rw [mem_singleton.mp hq]
    omega
  fresh p hp := by
    rcases mem_append.mp hp with hp | hp
    · have := hl.fresh p hp
      omega
    · rw [mem_singleton.mp hp]
      omega
  ends := by
    rw [marked_append hl.length_eq, ← hl.ends, marked]
    split <;> simp [marked]

end Live

/-! ### One queue -/

/-- The loop over a queue meets no fault; its kept events become cells. -/
theorem consumeQueue_live {events : List Nat} (hl : Live h tracker.endEvents (ps ++ events) cs) :
    ∃ tracker' h' events', consumeQueue tracker h events es = .ok (tracker', h', events') ∧
      tracker'.startEvents = trackAll tracker.startEvents es ∧
      Live h' tracker'.endEvents (ps ++ events') (cs ++ cellsFor tracker.startEvents es) ∧
      events'.length = events.length + (keptOf es).length ∧ h.next ≤ h'.next := by
  induction es generalizing tracker h events cs with
  | nil =>
    refine ⟨tracker, h, events, rfl, rfl, ?_, rfl, Nat.le_refl _⟩
    rw [cellsFor, append_nil]
    exact hl
  | cons e es ih =>
    rw [cellsFor, keptOf_cons, trackAll_cons]
    by_cases hs : e.isStart = true
    · have hstarts : (tracker.addStart e).startEvents = track tracker.startEvents e := by
        unfold addStart track
        rw [if_pos hs]
        cases hM : tracker.startEvents e.activityId <;> rfl
      have hends : (tracker.addStart e).endEvents = tracker.endEvents := by
        unfold addStart
        cases tracker.startEvents e.activityId <;> rfl
      rw [consumeQueue, ← hstarts]
      have hl' : Live h (tracker.addStart e).endEvents (ps ++ events) cs := hends.symm ▸ hl
      simpa [hs] using ih hl'
    · have hs' : e.isStart = false := by simpa using hs
      rw [if_neg hs]
      have hnew : (h.allocate [e]).objects h.next = some e := by simp [EventHeap.allocate]
      have hnext : (h.allocate [e]).next = h.next + 1 := rfl
      have hold : ∀ p < h.next, (h.allocate [e]).objects p = h.objects p := fun p hp ↦
        objects_allocate_of_lt hp
      -- what remains of the queue, from the tracker and the heap behind this event
      suffices hstep : ∃ tracker₁ h₁, h₁.next = h.next + 1 ∧
          tracker₁.startEvents = track tracker.startEvents e ∧
          Live h₁ tracker₁.endEvents (ps ++ (events ++ [h.next]))
            (cs ++ [cellFor tracker.startEvents e]) ∧
          consumeQueue tracker h events (e :: es) =
            consumeQueue tracker₁ h₁ (events ++ [h.next]) es by
        obtain ⟨tracker₁, h₁, hnext₁, hstarts₁, hlive₁, hrun⟩ := hstep
        obtain ⟨tracker', h', events', hrun', hstarts', hlive', hlen', hle⟩ := ih hlive₁
        refine ⟨tracker', h', events', hrun.trans hrun', ?_, ?_, ?_, by omega⟩
        · rw [hstarts', hstarts₁]
        · rw [hstarts₁, append_assoc] at hlive'
          exact hlive'
        · rw [hlen']
          simp [hs']
          omega
      by_cases he : e.isEnd = true
      · have hread : (h.allocate [e]).read h.next = .ok e := by rw [EventHeap.read, hnew]
        cases hM : tracker.startEvents e.activityId with
        | none =>
          refine ⟨{ tracker with endEvents := tracker.endEvents ++ [h.next] }, h.allocate [e],
            hnext, ?_, ?_, ?_⟩
          · rw [track, if_neg hs, if_pos he]
            exact (update_eq_self_iff.mpr hM.symm).symm
          · have := hl.push (c := (e, true)) hnext hnew hold
            simpa [cellFor, he, hM] using this
          · rw [consumeQueue, if_neg hs, if_pos he]
            simp only [addEnd, findStartAndMerge, hread, hM, bind, Except.bind]
            rfl
        | some start =>
          refine ⟨{ tracker with
            startEvents := update tracker.startEvents e.activityId none },
            (h.allocate [e]).write h.next (start.merge e), hnext, ?_, ?_, ?_⟩
          · rw [track, if_neg hs, if_pos he]
          · let merged := (h.allocate [e]).write h.next (start.merge e)
            have hold' : ∀ p < h.next, merged.objects p = h.objects p := fun p hp ↦
              (update_of_ne (Nat.ne_of_lt hp) ..).trans (hold p hp)
            have hself : merged.objects h.next = some (start.merge e) := update_self ..
            have := hl.push (start.merge e, false) (show merged.next = h.next + 1 from hnext) hself
              hold'
            simpa [cellFor, he, hM] using this
          · rw [consumeQueue, if_neg hs, if_pos he]
            simp only [addEnd, findStartAndMerge, hread, hM, bind, Except.bind]
            rfl
      · refine ⟨tracker, h.allocate [e], hnext, ?_, ?_, ?_⟩
        · rw [track, if_neg hs, if_neg he]
        · have := hl.push (c := (e, false)) hnext hnew hold
          simpa [cellFor, he] using this
        · rw [consumeQueue, if_neg hs, if_neg he]

/-! ### The vector -/

/-- The vector has one element for each of these, with the same thread and as many events. -/
def SameShape {A : Type} (result : List ThreadEvents) (contents : List (ThreadInfo × List A)) :
    Prop :=
  List.Forall₂ (fun t c ↦ t.thread = c.1 ∧ t.events.length = c.2.length) result contents

/-- The cells of each recorder that has any. -/
def threadCells (M : Int → Option Event) : List EventList → List (ThreadInfo × List EventCell)
  | [] => []
  | r :: rs =>
    if keptOf r.2 = [] then threadCells (trackAll M r.2) rs
    else (r.1, cellsFor M r.2) :: threadCells (trackAll M r.2) rs

theorem events_push (result : List ThreadEvents) (t : ThreadEvents) :
    (result ++ [t]).flatMap ThreadEvents.events =
      result.flatMap ThreadEvents.events ++ t.events := by
  rw [flatMap_append, flatMap_singleton]

section ThreadCells

variable {M : Int → Option Event} {r : EventList} {rs rs' : List EventList}

theorem allEvents_cons : allEvents (r :: rs) = r.2 ++ allEvents rs := flatMap_cons

theorem allEvents_append : allEvents (rs ++ rs') = allEvents rs ++ allEvents rs' := flatMap_append

theorem allEvents_snoc (rs : List EventList) (r : EventList) :
    allEvents (rs ++ [r]) = allEvents rs ++ r.2 := by
  rw [allEvents_append]
  exact congrArg _ (append_nil _)

theorem threadCells_flatMap : (threadCells M rs).flatMap Prod.snd = cellsFor M (allEvents rs) := by
  induction rs generalizing M with
  | nil => rfl
  | cons r rs ih =>
    rw [threadCells, allEvents_cons, cellsFor_append]
    split
    · next hk => rw [ih, cellsFor_eq_nil.mpr hk, nil_append]
    · rw [flatMap_cons, ih]

theorem threadCells_append :
    threadCells M (rs ++ rs') = threadCells M rs ++ threadCells (trackAll M (allEvents rs)) rs' := by
  induction rs generalizing M with
  | nil => rfl
  | cons r rs ih =>
    rw [cons_append, threadCells, threadCells, allEvents_cons, trackAll_append]
    split <;> rw [ih]
    rfl

theorem length_threadCells :
    (threadCells M rs).length = (rs.filter fun r ↦ keptOf r.2 ≠ []).length := by
  induction rs generalizing M with
  | nil => rfl
  | cons r rs ih =>
    rw [threadCells]
    split
    · next hk => simpa [hk] using ih
    · next hk => simpa [hk] using ih

end ThreadCells

/-- Copies of the elements are new objects with the same events. -/
theorem copyThreadEvents_eq {A : Type} {result : List ThreadEvents}
    {contents : List (ThreadInfo × List A)} (hshape : SameShape result contents)
    (hholds : Holds h (result.flatMap ThreadEvents.events) es)
    (hfresh : ∀ p ∈ result.flatMap ThreadEvents.events, p < h.next) :
    ∃ h' result', copyThreadEvents h result = .ok (h', result') ∧ SameShape result' contents ∧
      Holds h' (result'.flatMap ThreadEvents.events) es ∧
      (result'.flatMap ThreadEvents.events).Nodup ∧
      (∀ p ∈ result'.flatMap ThreadEvents.events, h.next ≤ p ∧ p < h'.next) ∧
      h.next ≤ h'.next ∧ ∀ p < h.next, h'.objects p = h.objects p := by
  induction hshape generalizing h es with
  | nil => exact ⟨h, [], rfl, .nil, hholds, nodup_nil, by simp, Nat.le_refl _, fun _ _ ↦ rfl⟩
  | @cons t c ts contents hhead _ ih =>
    rw [flatMap_cons] at hholds hfresh
    obtain ⟨es₁, es₂, rfl, hlen⟩ : ∃ es₁ es₂, es = es₁ ++ es₂ ∧ t.events.length = es₁.length := by
      refine ⟨es.take t.events.length, es.drop t.events.length, (take_append_drop ..).symm, ?_⟩
      have := hholds.length_eq
      rw [length_append] at this
      rw [length_take]
      omega
    obtain ⟨hhead', htail⟩ := hholds.split hlen
    have hnext : (h.allocate es₁).next = h.next + es₁.length := rfl
    have hold : ∀ p < h.next, (h.allocate es₁).objects p = h.objects p := fun p hp ↦
      objects_allocate_of_lt hp
    have htail' : Holds (h.allocate es₁) (ts.flatMap ThreadEvents.events) es₂ :=
      htail.congr fun p hp ↦ hold p (hfresh p (mem_append_right _ hp))
    obtain ⟨h', ts', hrun, hshape', hholds', hnodup', hnew', hle', hold'⟩ := ih htail'
      fun p hp ↦ Nat.lt_of_lt_of_le (hfresh p (mem_append_right _ hp)) (by omega)
    refine ⟨h', { t with events := h.allocated es₁ } :: ts', ?_, ?_, ?_, ?_, ?_, by omega, ?_⟩
    · simp only [copyThreadEvents, hhead'.readAll, hrun, bind, Except.bind, pure, Except.pure]
    · refine .cons ⟨hhead.1, ?_⟩ hshape'
      rw [← hhead.2, hlen]
      exact length_range' ..
    · refine Holds.append (holds_allocated.congr fun p hp ↦ hold' p ?_) hholds'
      exact (mem_allocated.mp hp).2
    · refine nodup_append.mpr ⟨nodup_range' .., hnodup', fun p hp q hq ↦ ?_⟩
      have := (mem_allocated.mp hp).2
      have := (hnew' q hq).1
      omega
    · intro p hp
      rcases mem_append.mp hp with hp | hp
      · have := mem_allocated.mp hp
        omega
      · have := hnew' p hp
        omega
    · exact fun p hp ↦ (hold' p (by omega)).trans (hold p hp)

/-! ### The recorders -/

/-- The state after these recorders. -/
structure Collected (before : List EventList) (tracker : SplitEventTracker) (h : EventHeap)
    (result : List ThreadEvents) : Prop where
  starts : tracker.startEvents = trackAll (fun _ ↦ none) (allEvents before)
  shape : SameShape result (threadCells (fun _ ↦ none) before)
  live : Live h tracker.endEvents (result.flatMap ThreadEvents.events)
    (cellsFor (fun _ ↦ none) (allEvents before))

/-- The pointer to an object that is gone is kept. -/
def Dangling (h : EventHeap) (ends : List Nat) : Prop := ∃ p ∈ ends, p < h.next ∧ h.objects p = none

section Recorder

variable {growth : Nat → Relocation} {before : List EventList} {result : List ThreadEvents}
  {r : EventList}

theorem Collected.length_eq (hc : Collected before tracker h result) :
    result.length = (before.filter fun r ↦ keptOf r.2 ≠ []).length := by
  rw [← length_threadCells]
  exact hc.shape.length_eq

/-- What one more queue leaves, before its events are pushed. -/
theorem Collected.queue (hc : Collected before tracker h result) (r : EventList) :
    ∃ tracker' h' events, consumeQueue tracker h [] r.2 = .ok (tracker', h', events) ∧
      tracker'.startEvents = trackAll (fun _ ↦ none) (allEvents (before ++ [r])) ∧
      Live h' tracker'.endEvents (result.flatMap ThreadEvents.events ++ events)
        (cellsFor (fun _ ↦ none) (allEvents (before ++ [r]))) ∧
      events.length = (keptOf r.2).length ∧ h.next ≤ h'.next := by
  have hlive := hc.live
  rw [← append_nil (result.flatMap _)] at hlive
  obtain ⟨tracker', h', events, hrun, hstarts, hlive', hlen, hle⟩ := consumeQueue_live hlive
  have hall := allEvents_snoc before r
  refine ⟨tracker', h', events, hrun, ?_, ?_, ?_, hle⟩
  · rw [hstarts, hc.starts, hall, trackAll_append]
  · rw [hall, cellsFor_append, ← hc.starts]
    exact hlive'
  · rw [hlen, length_nil, Nat.zero_add]

theorem threadCells_snoc (hk : keptOf r.2 ≠ []) :
    threadCells (fun _ ↦ none) (before ++ [r]) = threadCells (fun _ ↦ none) before ++
      [(r.1, cellsFor (trackAll (fun _ ↦ none) (allEvents before)) r.2)] := by
  rw [threadCells_append, threadCells, if_neg hk]
  rfl

variable (growth r) in
/-- A recorder is collected, if its push does not copy cells that are marked. -/
theorem Collected.recorder (hc : Collected before tracker h result)
    (hcopy : keptOf r.2 ≠ [] → growth result.length = .copies →
      ∀ c ∈ cellsFor (fun _ ↦ none) (allEvents before), c.2 = false) :
    ∃ tracker' h' result', consumeRecorder growth tracker h result r =
      .ok (tracker', h', result') ∧ Collected (before ++ [r]) tracker' h' result' := by
  obtain ⟨tracker', h', events, hrun, hstarts, hlive, hlen, hle⟩ := hc.queue r
  by_cases hk : keptOf r.2 = []
  · have hnil : events = [] := length_eq_zero_iff.mp (by rw [hlen, hk]; rfl)
    subst hnil
    refine ⟨tracker', h', result, ?_, hstarts, ?_, by rwa [append_nil] at hlive⟩
    · simp only [consumeRecorder, hrun, bind, Except.bind, pure, Except.pure, if_pos]
    · rw [threadCells_append, threadCells, if_pos hk, threadCells, append_nil]
      exact hc.shape
  have hne : events ≠ [] := fun hnil ↦ hk (length_eq_zero_iff.mp (by rw [← hlen, hnil]; rfl))
  have hshape : ∀ result₁, SameShape result₁ (threadCells (fun _ ↦ none) before) →
      SameShape (result₁ ++ [{ thread := r.1, events }])
        (threadCells (fun _ ↦ none) (before ++ [r])) := fun result₁ h₁ ↦ by
    rw [threadCells_snoc hk]
    exact rel_append h₁ (.cons ⟨rfl, by rw [length_cellsFor, hlen]⟩ .nil)
  by_cases hgrow : growth result.length = .copies
  · have hall : allEvents (before ++ [r]) = allEvents before ++ r.2 := by
      rw [allEvents_append, allEvents_cons]
      exact congrArg _ (append_nil _)
    have hunmarked := hcopy hk hgrow
    have hsplit := hlive.holds
    rw [hall, cellsFor_append, map_append] at hsplit
    have holdlen : (result.flatMap ThreadEvents.events).length =
        (cellsFor (fun _ ↦ none) (allEvents before)).length := hc.live.length_eq
    obtain ⟨hold, hnew⟩ := hsplit.split (by rw [holdlen, length_map])
    obtain ⟨h'', result', hcopied, hshape', hholds', hnodup', hrange', hle', hsame'⟩ :=
      copyThreadEvents_eq hc.shape hold fun p hp ↦ hlive.fresh p (mem_append_left _ hp)
    have hdisj := (nodup_append.mp hlive.nodup).2.2
    refine ⟨tracker', h''.destroy (result.flatMap ThreadEvents.events),
      result' ++ [{ thread := r.1, events }], ?_, hstarts, hshape _ hshape', ?_⟩
    · simp only [consumeRecorder, hrun, bind, Except.bind, pure, Except.pure, if_neg hne, pushBack,
        hgrow, hcopied]
    rw [events_push]
    have hgone : ∀ p, p ∉ result.flatMap ThreadEvents.events →
        (h''.destroy (result.flatMap ThreadEvents.events)).objects p = h''.objects p :=
      fun p hp ↦ if_neg hp
    have hafter : ∀ p ∈ events, h''.objects p = h'.objects p := fun p hp ↦
      hsame' p (hlive.fresh p (mem_append_right _ hp))
    refine ⟨?_, ?_, ?_, ?_⟩
    · rw [hall, cellsFor_append, map_append]
      refine Holds.append (hholds'.congr fun p hp ↦ hgone p fun hmem ↦ ?_)
        (hnew.congr fun p hp ↦ (hgone p fun hmem ↦ hdisj p hmem p hp rfl).trans (hafter p hp))
      have := hlive.fresh p (mem_append_left _ hmem)
      have := (hrange' p hp).1
      omega
    · refine nodup_append.mpr ⟨hnodup', (nodup_append.mp hlive.nodup).2.1, fun p hp q hq ↦ ?_⟩
      have := (hrange' p hp).1
      have := hlive.fresh q (mem_append_right _ hq)
      omega
    · intro p hp
      have hnext : (h''.destroy (result.flatMap ThreadEvents.events)).next = h''.next := rfl
      rw [hnext]
      rcases mem_append.mp hp with hp | hp
      · exact (hrange' p hp).2
      · exact Nat.lt_of_lt_of_le (hlive.fresh p (mem_append_right _ hp)) hle'
    · have hlen' : (result'.flatMap ThreadEvents.events).length =
          (cellsFor (fun _ ↦ none) (allEvents before)).length := by
        rw [hholds'.length_eq, length_map]
      rw [hlive.ends, hall, cellsFor_append, marked_append holdlen, marked_append hlen',
        (marked_eq_nil holdlen).mpr hunmarked, (marked_eq_nil hlen').mpr hunmarked]
  · refine ⟨tracker', h', result ++ [{ thread := r.1, events }], ?_, hstarts,
      hshape _ hc.shape, by rwa [events_push]⟩
    simp only [consumeRecorder, hrun, bind, Except.bind, pure, Except.pure, if_neg hne, pushBack]

/-- A push that copies marked cells leaves a pointer to an object that is gone. -/
theorem Collected.recorder_dangling (hc : Collected before tracker h result)
    (hk : keptOf r.2 ≠ []) (hgrow : growth result.length = .copies)
    (hmark : ∃ c ∈ cellsFor (fun _ ↦ none) (allEvents before), c.2 = true) :
    ∃ tracker' h' result', consumeRecorder growth tracker h result r =
      .ok (tracker', h', result') ∧ Dangling h' tracker'.endEvents := by
  obtain ⟨tracker', h', events, hrun, hstarts, hlive, hlen, hle⟩ := hc.queue r
  have hne : events ≠ [] := fun hnil ↦ hk (length_eq_zero_iff.mp (by rw [← hlen, hnil]; rfl))
  have hall := allEvents_snoc before r
  have hsplit := hlive.holds
  rw [hall, cellsFor_append, map_append] at hsplit
  have holdlen := hc.live.length_eq
  obtain ⟨hold, -⟩ := hsplit.split (by rw [holdlen, length_map])
  obtain ⟨h'', result', hcopied, -, -, -, -, hle', -⟩ :=
    copyThreadEvents_eq hc.shape hold fun p hp ↦ hlive.fresh p (mem_append_left _ hp)
  refine ⟨tracker', h''.destroy (result.flatMap ThreadEvents.events),
    result' ++ [{ thread := r.1, events }], ?_, ?_⟩
  · simp only [consumeRecorder, hrun, bind, Except.bind, pure, Except.pure, if_neg hne, pushBack,
      hgrow, hcopied]
  have hsome : marked (result.flatMap ThreadEvents.events)
      (cellsFor (fun _ ↦ none) (allEvents before)) ≠ [] := fun hnil ↦ by
    obtain ⟨c, hc', htrue⟩ := hmark
    rw [(marked_eq_nil holdlen).mp hnil c hc'] at htrue
    cases htrue
  obtain ⟨p, hp⟩ := exists_mem_of_ne_nil _ hsome
  have hpold := marked_subset hp
  refine ⟨p, ?_, ?_, if_pos hpold⟩
  · rw [hlive.ends, hall, cellsFor_append, marked_append holdlen]
    exact mem_append_left _ hp
  · exact Nat.lt_of_lt_of_le (hlive.fresh p (mem_append_left _ hpold)) hle'

end Recorder

/-! ### Pointers to objects that are gone -/

/-- Objects that are gone stay so, and no kept pointer is forgotten. -/
def Later (h : EventHeap) (ends : List Nat) (h' : EventHeap) (ends' : List Nat) : Prop :=
  (∀ p < h.next, h.objects p = none → h'.objects p = none) ∧ h.next ≤ h'.next ∧ ends ⊆ ends'

section Later

variable {h'' : EventHeap} {ends ends' ends'' : List Nat} {tracker' : SplitEventTracker}

theorem Later.refl (h : EventHeap) (ends : List Nat) : Later h ends h ends :=
  ⟨fun _ _ hp ↦ hp, Nat.le_refl _, List.Subset.refl _⟩

theorem Later.trans (h₁ : Later h ends h' ends') (h₂ : Later h' ends' h'' ends'') :
    Later h ends h'' ends'' :=
  ⟨fun p hp hnone ↦ h₂.1 p (Nat.lt_of_lt_of_le hp h₁.2.1) (h₁.1 p hp hnone),
    Nat.le_trans h₁.2.1 h₂.2.1, List.Subset.trans h₁.2.2 h₂.2.2⟩

theorem Dangling.later (hd : Dangling h ends) (hlater : Later h ends h' ends') :
    Dangling h' ends' := by
  obtain ⟨p, hp, hlt, hnone⟩ := hd
  exact ⟨p, hlater.2.2 hp, Nat.lt_of_lt_of_le hlt hlater.2.1, hlater.1 p hlt hnone⟩

theorem Later.allocate : Later h ends (h.allocate es) ends :=
  ⟨fun _ hp hnone ↦ (objects_allocate_of_lt hp).trans hnone, Nat.le_add_right ..,
    List.Subset.refl _⟩

theorem Later.destroy : Later h ends (h.destroy ps) ends := by
  refine ⟨fun p _ hnone ↦ ?_, Nat.le_refl _, List.Subset.refl _⟩
  simp only [EventHeap.destroy]
  split
  · rfl
  · exact hnone

variable (ends) in
/-- A merge writes to an object that is there. -/
theorem Later.findStartAndMerge {found : Bool}
    (hrun : tracker.findStartAndMerge h p = .ok (found, tracker', h')) :
    Later h ends h' ends ∧ tracker'.endEvents = tracker.endEvents := by
  unfold SplitEventTracker.findStartAndMerge EventHeap.read at hrun
  cases hobj : h.objects p with
  | none =>
    rw [hobj] at hrun
    cases hrun
  | some e =>
    rw [hobj] at hrun
    cases hM : tracker.startEvents e.activityId with
    | none =>
      simp only [hM, bind, Except.bind, pure, Except.pure] at hrun
      cases hrun
      exact ⟨.refl .., rfl⟩
    | some start =>
      simp only [hM, bind, Except.bind, pure, Except.pure] at hrun
      cases hrun
      refine ⟨⟨fun q _ hnone ↦ ?_, Nat.le_refl _, List.Subset.refl _⟩, rfl⟩
      have hne : q ≠ p := fun heq ↦ by
        rw [heq, hobj] at hnone
        cases hnone
      exact (update_of_ne hne ..).trans hnone

theorem Later.addEnd (hrun : tracker.addEnd h p = .ok (tracker', h')) :
    Later h tracker.endEvents h' tracker'.endEvents := by
  unfold SplitEventTracker.addEnd at hrun
  cases hfind : tracker.findStartAndMerge h p with
  | error => simp only [hfind, bind, Except.bind, reduceCtorEq] at hrun
  | ok found =>
    simp only [hfind] at hrun
    cases hrun
    obtain ⟨hlater, hends⟩ := Later.findStartAndMerge tracker.endEvents hfind
    split
    · rw [hends]
      exact hlater
    · exact ⟨hlater.1, hlater.2.1, hends ▸ subset_append_left ..⟩

theorem Later.consumeQueue {events events' : List Nat}
    (hrun : consumeQueue tracker h events es = .ok (tracker', h', events')) :
    Later h tracker.endEvents h' tracker'.endEvents := by
  induction es generalizing tracker h events with
  | nil =>
    cases hrun
    exact .refl ..
  | cons e es ih =>
    rw [Profiler.consumeQueue] at hrun
    by_cases hs : e.isStart = true
    · rw [if_pos hs] at hrun
      have hends : (tracker.addStart e).endEvents = tracker.endEvents := by
        unfold addStart
        cases tracker.startEvents e.activityId <;> rfl
      exact hends ▸ ih hrun
    · rw [if_neg hs] at hrun
      by_cases he : e.isEnd = true
      · rw [if_pos he] at hrun
        cases hadd : tracker.addEnd (h.allocate [e]) h.next with
        | error => simp only [hadd, bind, Except.bind, reduceCtorEq] at hrun
        | ok added =>
          simp only [hadd] at hrun
          exact (Later.allocate.trans (.addEnd hadd)).trans (ih hrun)
      · rw [if_neg he] at hrun
        exact Later.allocate.trans (ih hrun)

theorem Later.copyThreadEvents {ts ts' : List ThreadEvents}
    (hrun : copyThreadEvents h ts = .ok (h', ts')) : Later h ends h' ends := by
  induction ts generalizing h h' ts' with
  | nil =>
    cases hrun
    exact .refl ..
  | cons t ts ih =>
    unfold Profiler.copyThreadEvents at hrun
    cases hread : h.readAll t.events with
    | error => simp only [hread, bind, Except.bind, reduceCtorEq] at hrun
    | ok es =>
      cases hcopy : Profiler.copyThreadEvents (h.allocate es) ts with
      | error => simp only [hread, hcopy, bind, Except.bind, reduceCtorEq] at hrun
      | ok copied =>
        simp only [hread, hcopy, bind, Except.bind] at hrun
        cases hrun
        exact Later.allocate.trans (ih hcopy)

theorem Later.consumeRecorder {growth : Nat → Relocation} {result result' : List ThreadEvents}
    {r : EventList} (hrun : consumeRecorder growth tracker h result r = .ok (tracker', h', result')) :
    Later h tracker.endEvents h' tracker'.endEvents := by
  unfold Profiler.consumeRecorder at hrun
  cases hqueue : Profiler.consumeQueue tracker h [] r.2 with
  | error => simp only [hqueue, bind, Except.bind, reduceCtorEq] at hrun
  | ok queue =>
    obtain ⟨tracker₁, h₁, events⟩ := queue
    have hlater := Later.consumeQueue hqueue
    simp only [hqueue, bind, Except.bind] at hrun
    split at hrun
    · cases hrun
      exact hlater
    · unfold pushBack at hrun
      cases hgrow : growth result.length with
      | copies =>
        cases hcopy : Profiler.copyThreadEvents h₁ result with
        | error => simp only [hgrow, hcopy, bind, Except.bind, reduceCtorEq] at hrun
        | ok copied =>
          simp only [hgrow, hcopy] at hrun
          cases hrun
          exact hlater.trans ((Later.copyThreadEvents hcopy).trans .destroy)
      | moves | inPlace =>
        simp only [hgrow] at hrun
        cases hrun
        exact hlater

/-- `HandleCrossThreadEvents` reads every pointer that is kept. -/
theorem mergeAll_dangling (hp : p ∈ ps) (hnone : h.objects p = none) (hlt : p < h.next) :
    SplitEventTracker.mergeAll tracker h ps = .error .danglingEvent := by
  induction ps generalizing tracker h with
  | nil => cases hp
  | cons q ps ih =>
    rw [mergeAll]
    rcases mem_cons.mp hp with rfl | hp
    · simp only [findStartAndMerge, EventHeap.read, hnone, bind, Except.bind]
    · cases hfind : tracker.findStartAndMerge h q with
      | error e => rfl
      | ok found =>
        obtain ⟨hlater, -⟩ := Later.findStartAndMerge [] hfind
        exact ih hp (hlater.1 p hlt hnone) (Nat.lt_of_lt_of_le hlt hlater.2.1)

end Later

end Hisab.Profiler
