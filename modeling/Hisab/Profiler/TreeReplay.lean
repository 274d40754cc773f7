import Hisab.Base.FrameForest
import Hisab.Profiler.Collection

/-!
# The replay of starts and ends

The stack of a thread and the parents below it are the frames of that thread that are open. Popping
the ends that have come closes the frames that ended with all that is above them, and no entry is
missing on the way.
-/

namespace Hisab.Profiler.Collection

open Base Function List

variable {n : Nat} {initial results : Results} {s : TreeState} {x y event : Nat}
  {done above below : List Nat} {chain : Nat → List Nat} {queue : MinQueue Nat Int}
  {ended : Int → Bool}

/-- A result with an end, at or after its start, and without a forward thread. -/
structure Timed (r : Result) : Prop where
  le : r.startTimeNs ≤ r.end_
  real : minTime < r.end_
  home : ∀ e f, r.extraFields = .functionOp e f → f = 0

/-- No end is borrowed. -/
theorem endTimeNs_eq (hle : (results x).startTimeNs ≤ (results x).end_)
    (hreal : minTime < (results x).end_) : endTimeNs results n x = (results x).end_ := by
  have hne : ∀ e f, (results x).extraFields = .functionOp e f → e ≠ minTime := by
    intro e f he heq
    rw [Result.end_, he, heq] at hreal
    exact lt_irrefl _ hreal
  rw [endTimeNs.eq_def]
  cases he : (results x).extraFields with
  | functionOp e f =>
    have hend : (results x).end_ = e := by rw [Result.end_, he]
    rw [hend] at hle ⊢
    simp only [he, hne e f he, and_false, if_false]
    rw [if_pos (.inr hle)]
  | allocation =>
    have hend : (results x).end_ = (results x).startTimeNs := by rw [Result.end_, he]
    simp [he, hend]

/-- Times, threads and fields are as they were. -/
structure SameTimes (results initial : Results) : Prop where
  start : ∀ x, (results x).startTimeNs = (initial x).startTimeNs
  tid : ∀ x, (results x).startTid = (initial x).startTid
  extraFields : ∀ x, (results x).extraFields = (initial x).extraFields

theorem SameTimes.end_ (h : SameTimes results initial) (x : Nat) :
    (results x).end_ = (initial x).end_ := by
  rw [Result.end_, Result.end_, h.extraFields, h.start]

theorem SameTimes.endTimeNs (h : SameTimes results initial) (ht : Timed (initial x)) :
    endTimeNs results n x = (initial x).end_ := by
  rw [endTimeNs_eq, h.end_]
  · rw [h.start, h.end_]
    exact ht.le
  · rw [h.end_]
    exact ht.real

/-- From a frame through the parents to the last one. -/
def Linked (parent : Nat → Option Nat) : Option Nat → List Nat → Prop
  | top, [] => top = none
  | top, y :: frames => top = some y ∧ Linked parent (parent y) frames

theorem Linked.congr {parent parent' : Nat → Option Nat} {top : Option Nat} {frames : List Nat}
    (h : Linked parent top frames) (heq : ∀ y ∈ frames, parent' y = parent y) :
    Linked parent' top frames := by
  induction frames generalizing top with
  | nil => exact h
  | cons y frames ih =>
    refine ⟨h.1, ?_⟩
    rw [heq y mem_cons_self]
    exact ih h.2 fun z hz ↦ heq z (mem_cons_of_mem _ hz)

theorem Linked.head? {parent : Nat → Option Nat} {top : Option Nat} {frames : List Nat}
    (h : Linked parent top frames) : top = frames.head? := by
  cases frames with
  | nil => exact h
  | cons y frames => exact h.1

theorem Linked.rest {parent : Nat → Option Nat} {top : Option Nat}
    (h : Linked parent top (above ++ y :: below)) : Linked parent (parent y) below := by
  induction above generalizing top with
  | nil => exact h.2
  | cons z above ih => exact ih h.2

/-! ### Marks -/

/-- Results with some of them marked as finished. -/
def markAll (results : Results) (frames : List Nat) : Results := fun y ↦
  if y ∈ frames then { results y with finished := true } else results y

theorem markFinished_eq : markFinished results x = markAll results [x] := by
  funext y
  rw [markFinished, markAll]
  by_cases h : y = x
  · rw [h, update_self, if_pos mem_cons_self]
  · rw [update_of_ne h, if_neg (by simpa using h)]

theorem markAll_append : markAll (markAll results above) below = markAll results (above ++ below) := by
  funext y
  simp only [markAll]
  by_cases habove : y ∈ above
  · by_cases hbelow : y ∈ below
    · simp [habove]
    · simp [habove]
  · simp [habove]

@[simp] theorem markAll_parent (results : Results) (frames : List Nat) (y : Nat) :
    (markAll results frames y).parent = (results y).parent := by
  rw [markAll]
  split <;> rfl

@[simp] theorem markAll_children (results : Results) (frames : List Nat) (y : Nat) :
    (markAll results frames y).children = (results y).children := by
  rw [markAll]
  split <;> rfl

@[simp] theorem markAll_startTid (results : Results) (frames : List Nat) (y : Nat) :
    (markAll results frames y).startTid = (results y).startTid := by
  rw [markAll]
  split <;> rfl

theorem markAll_sameTimes (h : SameTimes results initial) (frames : List Nat) :
    SameTimes (markAll results frames) initial := by
  constructor
  · intro y
    rw [markAll, ← h.start]
    split <;> rfl
  · intro y
    rw [markAll_startTid, h.tid]
  · intro y
    rw [markAll, ← h.extraFields]
    split <;> rfl

theorem markAll_finished (results : Results) (frames : List Nat) (y : Nat) :
    (markAll results frames y).finished = ((results y).finished || decide (y ∈ frames)) := by
  rw [markAll]
  by_cases h : y ∈ frames
  · simp [h]
  · simp [h]

/-- The frames above an event are finished. -/
theorem unwindTo_eq {frame : Nat}
    (hlinked : Linked (fun y ↦ (results y).parent) (some frame) (above ++ event :: below))
    (habove : event ∉ above) (hn : above.length < n) :
    TreeState.unwindTo event n results frame = some (markAll results above) := by
  induction above generalizing n results frame with
  | nil =>
    obtain ⟨hframe, -⟩ := hlinked
    cases n with
    | zero => cases hn
    | succ n =>
      rw [TreeState.unwindTo, if_pos (Option.some.inj hframe)]
      congr 1
  | cons z above ih =>
    cases n with
    | zero => cases hn
    | succ n =>
      obtain ⟨hframe, hrest⟩ := hlinked
      obtain rfl : frame = z := Option.some.inj hframe
      have hne : frame ≠ event := fun heq ↦ habove (heq ▸ mem_cons_self)
      have hnext : ∃ frame', (results frame).parent = some frame' := by
        cases above with
        | nil | cons w above => exact ⟨_, hrest.1⟩
      obtain ⟨frame', hparent⟩ := hnext
      have hlinked' : Linked (fun y ↦ (markAll results [frame] y).parent) (some frame')
          (above ++ event :: below) := by
        simp only [hparent] at hrest
        exact hrest.congr fun y _ ↦ markAll_parent ..
      rw [TreeState.unwindTo, if_neg hne, markFinished_eq]
      simp only [markAll_parent, hparent]
      rw [ih hlinked' (fun h ↦ habove (mem_cons_of_mem _ h))
        (Nat.lt_of_succ_lt_succ hn), markAll_append]
      rfl

/-! ### Ends -/

/-- The open frames of each thread, innermost first, and what else the replay keeps to. -/
structure Replaying (initial : Results) (done : List Nat) (chain : Nat → List Nat)
    (s : TreeState) : Prop where
  times : SameTimes s.results initial
  linked : ∀ t, Linked (fun y ↦ (s.results y).parent) (s.threadStacks t) (chain t)
  nodup : ∀ t, (chain t).Nodup
  mem_done : ∀ t, ∀ y ∈ chain t, y ∈ done
  tid : ∀ t, ∀ y ∈ chain t, (initial y).startTid = t
  unfinished : ∀ t, ∀ y ∈ chain t, (s.results y).finished = false
  queued : ∀ t, ∀ y ∈ chain t, y ∈ s.endEvents
  mem_queue : ∀ y ∈ s.endEvents, y ∈ done
  closed : ∀ y ∈ done, (s.results y).finished = true ∨ y ∈ chain (initial y).startTid
  pending : ∀ y, y ∉ done → (s.results y).finished = (initial y).finished

/-- Parents and children are as they were. -/
structure SameLinks (results results' : Results) : Prop where
  parent : ∀ x, (results' x).parent = (results x).parent
  children : ∀ x, (results' x).children = (results x).children

/-- An event that is finished leaves the queue. -/
theorem Replaying.erase (h : Replaying initial done chain s)
    (hfinished : (s.results event).finished = true) :
    Replaying initial done chain { s with endEvents := s.endEvents.erase event } where
  times := h.times
  linked := h.linked
  nodup := h.nodup
  mem_done := h.mem_done
  tid := h.tid
  unfinished := h.unfinished
  queued t y hy := by
    apply (mem_erase_of_ne _).mpr (h.queued t y hy)
    intro heq
    have hy := h.unfinished t y hy
    rw [heq, hfinished] at hy
    cases hy
  mem_queue y hy := h.mem_queue y (mem_of_mem_erase hy)
  closed := h.closed
  pending := h.pending

/-- The frames up to an open one are closed. -/
theorem Replaying.close {t : Nat} (h : Replaying initial done chain s)
    (hchain : chain t = above ++ event :: below) :
    Replaying initial done (update chain t below) { s with
        results := markAll s.results (above ++ [event])
        threadStacks := update s.threadStacks t (s.results event).parent } := by
  have hsplit : chain t = (above ++ [event]) ++ below := by simp [hchain]
  have hnodup := h.nodup t
  rw [hsplit] at hnodup
  have hsub : ∀ t' y, y ∈ update chain t below t' → y ∈ chain t' ∧ y ∉ above ++ [event] := by
    intro t' y hy
    by_cases ht : t' = t
    · subst ht
      rw [update_self] at hy
      refine ⟨hsplit ▸ mem_append_right _ hy, fun hmem ↦ ?_⟩
      exact (nodup_append.mp hnodup).2.2 y hmem y hy rfl
    · rw [update_of_ne ht] at hy
      refine ⟨hy, fun hmem ↦ ht ?_⟩
      rw [← h.tid t' y hy]
      exact h.tid t y (hsplit ▸ mem_append_left _ hmem)
  constructor
  · exact markAll_sameTimes h.times _
  · intro t'
    by_cases ht : t' = t
    · subst ht
      have hlinked := h.linked t'
      rw [hchain] at hlinked
      simp only [update_self, markAll_parent]
      exact hlinked.rest
    · simp only [update_of_ne ht, markAll_parent]
      exact h.linked t'
  · intro t'
    by_cases ht : t' = t
    · subst ht
      rw [update_self]
      exact (nodup_append.mp hnodup).2.1
    · rw [update_of_ne ht]
      exact h.nodup t'
  · exact fun t' y hy ↦ h.mem_done t' y (hsub t' y hy).1
  · exact fun t' y hy ↦ h.tid t' y (hsub t' y hy).1
  · intro t' y hy
    rw [markAll_finished, h.unfinished t' y (hsub t' y hy).1]
    exact decide_eq_false (hsub t' y hy).2
  · exact fun t' y hy ↦ h.queued t' y (hsub t' y hy).1
  · exact h.mem_queue
  · intro y hy
    rw [markAll_finished]
    by_cases hmem : y ∈ above ++ [event]
    · exact .inl (by simp [hmem])
    · cases h.closed y hy with
      | inl hfinished => exact .inl (by simp [hfinished])
      | inr hopen =>
        right
        by_cases ht : (initial y).startTid = t
        · rw [ht] at hopen ⊢
          rw [update_self]
          rw [hsplit] at hopen
          exact (mem_append.mp hopen).resolve_left hmem
        · rwa [update_of_ne ht]
  · intro y hy
    have hmem : y ∉ above ++ [event] := fun hmem ↦
      hy (h.mem_done t y (hsplit ▸ mem_append_left _ hmem))
    rw [markAll_finished, decide_eq_false hmem, Bool.or_false, h.pending y hy]

/-- An end that has come is popped: the frame closes, with all above it, if it is open. -/
theorem Replaying.popEvent {p : Int → Bool} (h : Replaying initial done chain s)
    (hevent : event ∈ s.endEvents) (hn : done.length ≤ n)
    (hp : p (initial event).end_ = false) :
    ∃ chain' s', s.popEvent n event = some s' ∧
      Replaying initial done chain' { s' with endEvents := s'.endEvents.erase event } ∧
      s'.endEvents = s.endEvents ∧ SameLinks s.results s'.results ∧
      ∀ t, (chain' t).rtakeWhile (fun y ↦ p (initial y).end_) =
        (chain t).rtakeWhile fun y ↦ p (initial y).end_ := by
  rw [TreeState.popEvent]
  by_cases hfinished : (s.results event).finished = true
  · rw [if_pos hfinished]
    exact ⟨chain, s, rfl, h.erase hfinished, rfl, ⟨fun _ ↦ rfl, fun _ ↦ rfl⟩, fun _ ↦ rfl⟩
  · rw [if_neg hfinished]
    have hopen : event ∈ chain (initial event).startTid :=
      (h.closed event (h.mem_queue event hevent)).resolve_left hfinished
    obtain ⟨above, below, hchain⟩ := append_of_mem hopen
    have hnodupc := h.nodup (initial event).startTid
    rw [hchain] at hnodupc
    have habove : event ∉ above := fun hmem ↦
      (nodup_append.mp hnodupc).2.2 event hmem event mem_cons_self rfl
    have hlength : above.length < n := by
      have hsub : (chain (initial event).startTid).length ≤ done.length :=
        (subperm_of_subset (h.nodup _) (h.mem_done _)).length_le
      rw [hchain, length_append, length_cons] at hsub
      omega
    have hlinked := h.linked (initial event).startTid
    rw [hchain] at hlinked
    have hframe : ∃ frame, s.threadStacks (initial event).startTid = some frame ∧
        Linked (fun y ↦ (s.results y).parent) (some frame) (above ++ event :: below) := by
      cases hstack : s.threadStacks (initial event).startTid with
      | none =>
        rw [hstack] at hlinked
        have hhead := hlinked.head?
        cases hh : above.head? <;> simp [hh] at hhead
      | some frame => exact ⟨frame, rfl, hstack ▸ hlinked⟩
    obtain ⟨frame, hstack, hlinked⟩ := hframe
    simp only [hstack, unwindTo_eq hlinked habove hlength, markFinished_eq, markAll_append,
      markAll_startTid, markAll_parent, h.times.tid]
    have hclose := h.close hchain
    refine ⟨_, _, rfl, hclose.erase ?_, rfl, ⟨markAll_parent _ _, markAll_children _ _⟩, ?_⟩
    · rw [markAll_finished]
      simp
    · intro t
      by_cases ht : t = (initial event).startTid
      · subst ht
        rw [update_self, hchain]
        exact (rtakeWhile_append_cons (p := fun y ↦ p (initial y).end_) hp).symm
      · rw [update_of_ne ht]

theorem SameLinks.trans {results' results'' : Results} (h : SameLinks results results')
    (h' : SameLinks results' results'') : SameLinks results results'' where
  parent x := (h'.parent x).trans (h.parent x)
  children x := (h'.children x).trans (h.children x)

/-- The ends that have come are popped, which leaves the frames that are open. -/
theorem Replaying.popWhile (h : Replaying initial done chain s) (queue : MinQueue Nat Int)
    (ended : Int → Bool) (hn : done.length ≤ n)
    (htimed : ∀ y ∈ done, Timed (initial y))
    (hended : ∀ a b, a ≤ b → ended b = true → ended a = true) {k : Nat}
    (hk : s.endEvents.length ≤ k) :
    ∃ s', TreeState.popWhile n queue ended k s = some s' ∧ SameLinks s.results s'.results ∧
      Replaying initial done (fun t ↦ (chain t).rtakeWhile fun y ↦ !ended (initial y).end_) s' := by
  induction k generalizing s chain with
  | zero =>
    have hempty : s.endEvents = [] := eq_nil_of_length_eq_zero (by omega)
    have hchain : (fun t ↦ (chain t).rtakeWhile fun y ↦ !ended (initial y).end_) = chain := by
      funext t
      apply rtakeWhile_eq_self_iff.mpr
      intro y hy
      have hmem := h.queued t y hy
      rw [hempty] at hmem
      cases hmem
    rw [hchain]
    exact ⟨s, rfl, ⟨fun _ ↦ rfl, fun _ ↦ rfl⟩, h⟩
  | succ k ih =>
    have hend : ∀ y ∈ s.endEvents, endTimeNs s.results n y = (initial y).end_ :=
      fun y hy ↦ h.times.endTimeNs (htimed y (h.mem_queue y hy))
    have hkeep : (∀ y ∈ s.endEvents, ended (initial y).end_ = false) →
        (fun t ↦ (chain t).rtakeWhile fun y ↦ !ended (initial y).end_) = chain := by
      intro hall
      funext t
      apply rtakeWhile_eq_self_iff.mpr
      intro y hy
      simpa using hall y (h.queued t y hy)
    rw [TreeState.popWhile]
    cases htop : queue.top (endTimeNs s.results n) s.endEvents with
    | none =>
      have hempty := queue.top_none htop
      rw [hkeep (by rw [hempty]; simp)]
      exact ⟨s, rfl, ⟨fun _ ↦ rfl, fun _ ↦ rfl⟩, h⟩
    | some event =>
      have hevent := queue.top_mem htop
      simp only [hend event hevent]
      cases hdue : ended (initial event).end_ with
      | true =>
        obtain ⟨chain', s', hpop, hs', hqueue, hlinks, hchain⟩ :=
          h.popEvent (p := fun e ↦ !ended e) hevent hn (by simp [hdue])
        have hlength : (s'.endEvents.erase event).length ≤ k := by
          rw [hqueue, length_erase_of_mem hevent]
          omega
        obtain ⟨s'', hrest, hlinks', hs''⟩ := ih hs' hlength
        simp only [hpop, hrest]
        refine ⟨s'', rfl, hlinks.trans hlinks', ?_⟩
        have heq : (fun t ↦ (chain' t).rtakeWhile fun y ↦ !ended (initial y).end_) =
            fun t ↦ (chain t).rtakeWhile fun y ↦ !ended (initial y).end_ := funext hchain
        rw [← heq]
        exact hs''
      | false =>
        have hall : ∀ y ∈ s.endEvents, ended (initial y).end_ = false := by
          intro y hy
          have hle := queue.top_le htop y hy
          rw [hend event hevent, hend y hy] at hle
          cases hy' : ended (initial y).end_ with
          | false => rfl
          | true =>
            rw [hended _ _ hle hy'] at hdue
            cases hdue
        rw [hkeep hall]
        exact ⟨s, by simp, ⟨fun _ ↦ rfl, fun _ ↦ rfl⟩, h⟩

/-! ### Starts -/

theorem addChild_parent {parent : Nat} (hne : parent ≠ event) (y : Nat) :
    (addChild results parent event y).parent =
      if y = event then some parent else (results y).parent := by
  rw [addChild]
  by_cases hy : y = event
  · subst hy
    rw [if_pos rfl, update_of_ne (Ne.symm hne), update_self]
  · rw [if_neg hy]
    by_cases hp : y = parent
    · subst hp
      rw [update_self, update_of_ne hy]
    · rw [update_of_ne hp, update_of_ne hy]

theorem addChild_children {parent : Nat} (hne : parent ≠ event) (y : Nat) :
    (addChild results parent event y).children =
      if y = parent then (results y).children ++ [event] else (results y).children := by
  rw [addChild]
  by_cases hp : y = parent
  · subst hp
    rw [update_self, update_of_ne hne, if_pos rfl]
  · rw [update_of_ne hp, if_neg hp]
    by_cases hy : y = event
    · rw [hy, update_self]
    · rw [update_of_ne hy]

/-- An event is put under a frame, or under none. -/
structure Pushed (results results' : Results) (event : Nat) (top : Option Nat) : Prop where
  parent : ∀ y, (results' y).parent = if y = event then top else (results y).parent
  children : ∀ y, (results' y).children =
    if top = some y then (results y).children ++ [event] else (results y).children

theorem link_pushed (results : Results) (event : Nat) (top : Option Nat) (hne : top ≠ some event)
    (hparent : (results event).parent = none) :
    Pushed results (link results event top) event top := by
  cases top with
  | none =>
    refine ⟨fun y ↦ ?_, fun y ↦ rfl⟩
    by_cases hy : y = event
    · subst hy
      rw [if_pos rfl]
      exact hparent
    · rw [if_neg hy]
      rfl
  | some parent =>
    have hne : parent ≠ event := fun heq ↦ hne (by rw [heq])
    refine ⟨addChild_parent hne, fun y ↦ ?_⟩
    rw [link, addChild_children hne]
    simp only [Option.some.injEq, eq_comm]

/-- The other fields stay. -/
theorem link_same (results : Results) (event : Nat) (top : Option Nat) (y : Nat) : ∃ parent children, link results event top y =
    { results y with parent := parent, children := children } := by
  cases top with
  | none => exact ⟨_, _, rfl⟩
  | some parent =>
    rw [link, addChild]
    by_cases hp : y = parent
    · subst hp
      rw [update_self]
      by_cases hy : y = event
      · subst hy
        rw [update_self]
        exact ⟨_, _, rfl⟩
      · rw [update_of_ne hy]
        exact ⟨_, _, rfl⟩
    · rw [update_of_ne hp]
      by_cases hy : y = event
      · subst hy
        rw [update_self]
        exact ⟨_, _, rfl⟩
      · rw [update_of_ne hy]
        exact ⟨_, _, rfl⟩

theorem link_finished (top : Option Nat) (y : Nat) :
    (link results event top y).finished = (results y).finished := by
  obtain ⟨parent, children, heq⟩ := link_same results event top y
  rw [heq]

theorem SameTimes.link (h : SameTimes results initial) (event : Nat) (top : Option Nat) :
    SameTimes (link results event top) initial := by
  constructor
  · intro y
    obtain ⟨parent, children, heq⟩ := link_same results event top y
    rw [heq, ← h.start]
  · intro y
    obtain ⟨parent, children, heq⟩ := link_same results event top y
    rw [heq, ← h.tid]
  · intro y
    obtain ⟨parent, children, heq⟩ := link_same results event top y
    rw [heq, ← h.extraFields]

theorem Replaying.findParent (h : Replaying initial done chain s) (htimed : Timed (initial event)) :
    s.findParent event = (chain (initial event).startTid).head? := by
  rw [TreeState.findParent, h.times.tid, ← (h.linked _).head?]
  cases hstack : s.threadStacks (initial event).startTid with
  | some parent => rfl
  | none =>
    simp only [h.times.extraFields]
    cases he : (initial event).extraFields with
    | functionOp e f => simp [htimed.home e f he]
    | allocation => rfl

/-- The frames after a start. -/
def pushChain (initial : Results) (chain : Nat → List Nat) (event : Nat) : Nat → List Nat :=
  if (initial event).startTimeNs < (initial event).end_ then
    update chain (initial event).startTid (event :: chain (initial event).startTid)
  else chain

theorem mem_pushChain {t : Nat} (h : y ∈ pushChain initial chain event t) :
    y ∈ chain t ∨ y = event ∧ t = (initial event).startTid := by
  rw [pushChain] at h
  split at h
  · by_cases ht : t = (initial event).startTid
    · subst ht
      rw [update_self] at h
      cases mem_cons.mp h with
      | inl heq => exact .inr ⟨heq, rfl⟩
      | inr hmem => exact .inl hmem
    · rw [update_of_ne ht] at h
      exact .inl h
  · exact .inl h

/-- An event is put under the innermost open frame of its thread, and becomes a frame unless it is
empty. -/
theorem Replaying.pushEvent (h : Replaying initial done chain s) (hevent : event ∉ done)
    (hparent : (s.results event).parent = none) (hfinished : (s.results event).finished = false)
    (htimed : Timed (initial event)) :
    Replaying initial (done ++ [event]) (pushChain initial chain event) (s.pushEvent n event) ∧
      Pushed s.results (s.pushEvent n event).results event
        (chain (initial event).startTid).head? := by
  have hne : ∀ t, event ∉ chain t := fun t hmem ↦ hevent (h.mem_done t event hmem)
  have hpushed := link_pushed s.results event (chain (initial event).startTid).head?
   
    (fun heq ↦ hne _ (mem_of_mem_head? heq)) hparent
  have htimes := h.times.link event (chain (initial event).startTid).head?
  have hlinked : ∀ t, Linked (fun y ↦ (link s.results event
      (chain (initial event).startTid).head? y).parent) (s.threadStacks t) (chain t) := by
    intro t
    apply (h.linked t).congr
    intro y hy
    rw [hpushed.parent, if_neg]
    intro heq
    exact hne t (heq ▸ hy)
  rw [TreeState.pushEvent, h.findParent htimed]
  simp only [htimes.endTimeNs htimed, htimes.start, htimes.tid]
  by_cases hpos : (initial event).startTimeNs < (initial event).end_
  · have hcases : ∀ t, ∀ y ∈ pushChain initial chain event t,
        y ∈ chain t ∨ y = event ∧ t = (initial event).startTid := fun t y hy ↦ mem_pushChain hy
    rw [pushChain, if_pos hpos] at hcases
    rw [if_pos hpos, pushChain, if_pos hpos]
    refine ⟨⟨htimes, ?_, ?_, ?_, ?_, ?_, ?_, ?_, ?_, ?_⟩, hpushed⟩
    · intro t
      dsimp only
      by_cases ht : t = (initial event).startTid
      · subst ht
        rw [update_self, update_self]
        refine ⟨rfl, ?_⟩
        have hself : (link s.results event (chain (initial event).startTid).head? event).parent =
            s.threadStacks (initial event).startTid := by
          rw [hpushed.parent, if_pos rfl, ← (h.linked _).head?]
        dsimp only
        rw [hself]
        exact hlinked _
      · rw [update_of_ne ht, update_of_ne ht]
        exact hlinked t
    · intro t
      by_cases ht : t = (initial event).startTid
      · subst ht
        rw [update_self]
        exact nodup_cons.mpr ⟨hne _, h.nodup _⟩
      · rw [update_of_ne ht]
        exact h.nodup t
    · intro t y hy
      cases hcases t y hy with
      | inl hy => exact mem_append_left _ (h.mem_done t y hy)
      | inr hy => exact mem_append_right _ (hy.1 ▸ mem_cons_self)
    · intro t y hy
      cases hcases t y hy with
      | inl hy => exact h.tid t y hy
      | inr hy => rw [hy.1, hy.2]
    · intro t y hy
      rw [link_finished]
      cases hcases t y hy with
      | inl hy => exact h.unfinished t y hy
      | inr hy => rw [hy.1, hfinished]
    · intro t y hy
      cases hcases t y hy with
      | inl hy => exact mem_cons_of_mem _ (h.queued t y hy)
      | inr hy => exact hy.1 ▸ mem_cons_self
    · intro y hy
      cases mem_cons.mp hy with
      | inl heq => exact mem_append_right _ (heq ▸ mem_cons_self)
      | inr hy => exact mem_append_left _ (h.mem_queue y hy)
    · intro y hy
      rw [link_finished]
      cases mem_append.mp hy with
      | inl hy =>
        apply (h.closed y hy).imp_right
        intro hopen
        by_cases ht : (initial y).startTid = (initial event).startTid
        · rw [ht] at hopen ⊢
          rw [update_self]
          exact mem_cons_of_mem _ hopen
        · rwa [update_of_ne ht]
      | inr hy =>
        rw [mem_singleton.mp hy, update_self]
        exact .inr mem_cons_self
    · intro y hy
      rw [link_finished]
      exact h.pending y fun hmem ↦ hy (mem_append_left _ hmem)
  · rw [if_neg hpos, if_neg (ne_of_gt htimed.real), pushChain, if_neg hpos, markFinished_eq]
    refine ⟨⟨markAll_sameTimes htimes _, ?_, h.nodup, ?_, h.tid, ?_, h.queued, ?_, ?_, ?_⟩, ?_⟩
    · exact fun t ↦ (hlinked t).congr fun y _ ↦ markAll_parent ..
    · exact fun t y hy ↦ mem_append_left _ (h.mem_done t y hy)
    · intro t y hy
      have hy' : y ∉ [event] := fun hmem ↦ hne t (mem_singleton.mp hmem ▸ hy)
      rw [markAll_finished, link_finished, h.unfinished t y hy, decide_eq_false hy', Bool.or_false]
    · exact fun y hy ↦ mem_append_left _ (h.mem_queue y hy)
    · intro y hy
      rw [markAll_finished, link_finished]
      cases mem_append.mp hy with
      | inl hy =>
        cases h.closed y hy with
        | inl hdone => exact .inl (by simp [hdone])
        | inr hopen => exact .inr hopen
      | inr hy => exact .inl (by simp [mem_singleton.mp hy])
    · intro y hy
      have hmem : y ∉ [event] := fun hmem ↦ hy (mem_append_right _ hmem)
      rw [markAll_finished, decide_eq_false hmem, Bool.or_false, link_finished]
      exact h.pending y fun hmem ↦ hy (mem_append_left _ hmem)
    · exact ⟨fun y ↦ (markAll_parent ..).trans (hpushed.parent y),
        fun y ↦ (markAll_children ..).trans (hpushed.children y)⟩

/-! ### The call tree -/

/-- The events of a thread. -/
def onThread (initial : Results) (t : Nat) (events : List Nat) : List Nat :=
  events.filter fun x ↦ decide ((initial x).startTid = t)

/-- Start and end of the results of a list, before anything is built. -/
def startOf (initial : Results) (x : Nat) : Int := (initial x).startTimeNs

def endOf (initial : Results) (x : Nat) : Int := (initial x).end_

/-- The frames of a thread after events. -/
def framesOf (initial : Results) (events : List Nat) (t : Nat) : List Nat :=
  framesAfter (startOf initial) (endOf initial) [] (onThread initial t events)

/-- A result that is in no tree. -/
structure Fresh (r : Result) : Prop where
  parent : r.parent = none
  children : r.children = []
  finished : r.finished = false

/-- The tree that the events up to some time have made, of which the frames that are open at that
time are still on the stacks. -/
structure Growing (initial : Results) (done : List Nat) (time : Int) (s : TreeState) : Prop where
  replaying : Replaying initial done
    (fun t ↦ openPart (endOf initial) time (framesOf initial done t)) s
  parents : ∀ t, (onThread initial t done).map (fun x ↦ (x, (s.results x).parent)) =
    frameParents (startOf initial) (endOf initial) [] (onThread initial t done)
  children : ∀ y, (s.results y).children =
    (initial y).children ++ done.filter fun x ↦ decide ((s.results x).parent = some y)
  untouched : ∀ x, x ∉ done → (s.results x).parent = (initial x).parent

theorem onThread_append (events events' : List Nat) (t : Nat) :
    onThread initial t (events ++ events') =
      onThread initial t events ++ onThread initial t events' := filter_append ..

theorem onThread_singleton (event t : Nat) : onThread initial t [event] =
    if (initial event).startTid = t then [event] else [] := by
  rw [onThread]
  by_cases h : (initial event).startTid = t
  · simp [h]
  · simp [h]

theorem framesOf_append (t : Nat) : framesOf initial (done ++ [event]) t =
    if (initial event).startTid = t then
      pushFrame (startOf initial) (endOf initial) (framesOf initial done t) event
    else framesOf initial done t := by
  rw [framesOf, onThread_append, onThread_singleton, framesAfter_append]
  split
  · rfl
  · rfl

/-- The frames that are open at the start of an event, once it is pushed. -/
theorem openPart_framesOf_append (hle : (initial event).startTimeNs ≤ (initial event).end_) :
    (fun t ↦ openPart (endOf initial) (startOf initial event)
        (framesOf initial (done ++ [event]) t)) =
      pushChain initial (fun t ↦ openPart (endOf initial) (startOf initial event)
        (framesOf initial done t)) event := by
  funext t
  rw [framesOf_append, pushChain]
  by_cases ht : (initial event).startTid = t
  · subst ht
    rw [if_pos rfl, pushFrame]
    by_cases hpos : (initial event).startTimeNs < (initial event).end_
    · have hpos' : startOf initial event < endOf initial event := hpos
      rw [if_pos hpos, if_pos hpos', update_self]
      apply openPart_eq_self
      intro y hy
      cases mem_cons.mp hy with
      | inl heq =>
        rw [heq]
        exact hle
      | inr hy => exact le_stop_of_mem_openPart hy
    · have hpos' : ¬ startOf initial event < endOf initial event := hpos
      rw [if_neg hpos, if_neg hpos', openPart_openPart le_rfl]
  · rw [if_neg ht]
    split
    · rw [update_of_ne (Ne.symm ht)]
    · rfl

/-- An event that the ends before it and it itself are replayed for. -/
theorem Growing.replay {time : Int} (h : Growing initial done time s) (queue : MinQueue Nat Int)
    (hevent : event ∉ done)
    (hfresh : Fresh (initial event))
    (htime : time ≤ (initial event).startTimeNs) (hn : done.length ≤ n)
    (htimed : ∀ y ∈ done ++ [event], Timed (initial y)) :
    ∃ s', s.replay n queue event = some s' ∧
      Growing initial (done ++ [event]) (initial event).startTimeNs s' := by
  have hstart : (s.results event).startTimeNs = (initial event).startTimeNs :=
    h.replaying.times.start event
  have hlast : Timed (initial event) := htimed event (by simp)
  obtain ⟨s₁, hpop, hlinks, hs₁⟩ := h.replaying.popWhile queue
    (fun e ↦ decide (e < (initial event).startTimeNs)) hn
    (fun y hy ↦ htimed y (mem_append_left _ hy))
    (fun a b hab hb ↦ decide_eq_true (hab.trans_lt (of_decide_eq_true hb))) le_rfl
  have hchain : (fun t ↦ (openPart (endOf initial) time (framesOf initial done t)).rtakeWhile
      fun y ↦ !decide ((initial y).end_ < (initial event).startTimeNs)) =
        fun t ↦ openPart (endOf initial) (startOf initial event) (framesOf initial done t) := by
    funext t
    have hopen : openPart (endOf initial) (startOf initial event)
        (openPart (endOf initial) time (framesOf initial done t)) =
          openPart (endOf initial) (startOf initial event) (framesOf initial done t) :=
      openPart_openPart htime
    rw [← hopen]
    congr 1
    funext y
    rw [← decide_not]
    exact decide_eq_decide.mpr not_lt
  rw [hchain] at hs₁
  have huntouched : (s₁.results event).parent = none ∧ (s₁.results event).finished = false := by
    rw [hlinks.parent, h.untouched event hevent, hs₁.pending event hevent]
    exact ⟨hfresh.parent, hfresh.finished⟩
  obtain ⟨hs₂, hpushed⟩ := hs₁.pushEvent hevent huntouched.1 huntouched.2 hlast
  refine ⟨s₁.pushEvent n event, ?_, ?_⟩
  · rw [TreeState.replay, hstart, hpop]
  · have hparent : ∀ y, y ∈ done → ((s₁.pushEvent n event).results y).parent =
        (s.results y).parent := by
      intro y hy
      have hne : y ≠ event := fun heq ↦ hevent (heq ▸ hy)
      rw [hpushed.parent, if_neg hne, hlinks.parent]
    have hself : ((s₁.pushEvent n event).results event).parent =
        (openPart (endOf initial) (startOf initial event)
          (framesOf initial done (initial event).startTid)).head? := by
      rw [hpushed.parent, if_pos rfl]
    constructor
    · rw [← openPart_framesOf_append hlast.le] at hs₂
      exact hs₂
    · intro t
      have hbefore : (onThread initial t done).map
          (fun x ↦ (x, ((s₁.pushEvent n event).results x).parent)) =
            frameParents (startOf initial) (endOf initial) [] (onThread initial t done) := by
        rw [← h.parents t]
        apply map_congr_left
        intro x hx
        rw [hparent x (mem_filter.mp hx).1]
      rw [onThread_append, onThread_singleton, map_append, frameParents_append]
      congr 1
      split
      · next ht =>
        subst ht
        rw [map_singleton, hself]
        rfl
      · rfl
    · intro y
      rw [hpushed.children, hlinks.children, h.children, filter_append, filter_cons,
        filter_nil, hself]
      have hbefore : (done.filter fun x ↦ decide ((s.results x).parent = some y)) =
          done.filter fun x ↦ decide (((s₁.pushEvent n event).results x).parent = some y) := by
        apply filter_congr
        intro x hx
        rw [hparent x hx]
      rw [hbefore]
      by_cases hy : (openPart (endOf initial) (startOf initial event)
          (framesOf initial done (initial event).startTid)).head? = some y
      · rw [if_pos hy, if_pos (decide_eq_true hy), append_assoc]
      · rw [if_neg hy, if_neg (by simpa using hy), append_nil]
    · intro x hx
      have hne : x ≠ event := fun heq ↦ hx (mem_append_right _ (heq ▸ mem_cons_self))
      rw [hpushed.parent, if_neg hne, hlinks.parent]
      exact h.untouched x fun hmem ↦ hx (mem_append_left _ hmem)

theorem Growing.foldlM {events : List Nat} {time : Int} (h : Growing initial done time s)
    (hn : (done ++ events).length ≤ n) (hnodup : (done ++ events).Nodup)
    (htime : ∀ y ∈ events, time ≤ (initial y).startTimeNs)
    (hsorted : events.Pairwise fun x y ↦ (initial x).startTimeNs ≤ (initial y).startTimeNs)
    (hfresh : ∀ y ∈ events, Fresh (initial y)) (htimed : ∀ y ∈ done ++ events, Timed (initial y)) :
    ∃ s' time', events.foldlM (TreeState.replay n queue) s = some s' ∧
      Growing initial (done ++ events) time' s' := by
  induction events generalizing done time s with
  | nil => exact ⟨s, time, rfl, by rwa [append_nil]⟩
  | cons event events ih =>
    obtain ⟨hlater, hsorted⟩ := pairwise_cons.mp hsorted
    have hevent : event ∉ done := fun hmem ↦
      (nodup_append.mp hnodup).2.2 event hmem event mem_cons_self rfl
    have hsplit : done ++ event :: events = done ++ [event] ++ events := by simp
    rw [hsplit] at hn hnodup htimed ⊢
    have hlength : done.length ≤ n := by
      rw [length_append, length_append] at hn
      omega
    obtain ⟨s₁, hreplay, hs₁⟩ := h.replay queue hevent (hfresh event mem_cons_self)
      (htime event mem_cons_self) hlength fun y hy ↦ htimed y (mem_append_left _ hy)
    obtain ⟨s', time', hrest, hs'⟩ := ih hs₁ hn hnodup hlater hsorted
      (fun y hy ↦ hfresh y (mem_cons_of_mem _ hy)) htimed
    refine ⟨s', time', ?_, hs'⟩
    rw [foldlM_cons, hreplay]
    exact hrest

/-- The call tree of events: the parents of each thread's events are its open frames. -/
structure CallTree (initial results : Results) (events : List Nat) : Prop where
  times : SameTimes results initial
  parents : ∀ t, (onThread initial t events).map (fun x ↦ (x, (results x).parent)) =
    frameParents (startOf initial) (endOf initial) [] (onThread initial t events)
  children : ∀ y ∈ events, (results y).children =
    events.filter fun x ↦ decide ((results x).parent = some y)
  finished : ∀ x ∈ events, (results x).finished = true

/-- What `build_tree` is given: events in no tree, in the order of their starts. -/
structure Sorted (initial : Results) (events : List Nat) : Prop where
  nodup : events.Nodup
  fresh : ∀ x ∈ events, Fresh (initial x)
  timed : ∀ x ∈ events, Timed (initial x)
  sorted : events.Pairwise fun x y ↦ (initial x).startTimeNs ≤ (initial y).startTimeNs

/-- `build_tree` makes the call tree, whatever the intervals are. -/
theorem buildTree_eq (queue : MinQueue Nat Int) {events : List Nat} (h : Sorted initial events) :
    ∃ results, buildTree queue initial events = some results ∧ CallTree initial results events := by
  have hinit : ∀ time, Growing initial [] time { results := initial } := by
    intro time
    refine ⟨⟨⟨fun _ ↦ rfl, fun _ ↦ rfl, fun _ ↦ rfl⟩, fun _ ↦ rfl, fun _ ↦ nodup_nil, nofun,
      nofun, nofun, nofun, nofun, nofun, fun _ _ ↦ rfl⟩, fun _ ↦ rfl, fun _ ↦ ?_, fun _ _ ↦ rfl⟩
    rw [filter_nil, append_nil]
  have hfold : ∃ s time, events.foldlM (TreeState.replay events.length queue)
      { results := initial } = some s ∧ Growing initial events time s := by
    cases events with
    | nil => exact ⟨_, 0, rfl, hinit 0⟩
    | cons event events =>
      have hlater := (pairwise_cons.mp h.sorted).1
      apply (hinit (initial event).startTimeNs).foldlM le_rfl h.nodup _ h.sorted h.fresh h.timed
      intro y hy
      cases mem_cons.mp hy with
      | inl heq => rw [heq]
      | inr hy => exact hlater y hy
  obtain ⟨s, time, hs, hgrown⟩ := hfold
  obtain ⟨s', hpop, hlinks, hs'⟩ := hgrown.replaying.popWhile queue
    (fun _ ↦ true) le_rfl h.timed (fun _ _ _ h ↦ h) le_rfl
  refine ⟨s'.results, ?_, hs'.times, ?_, ?_, ?_⟩
  · rw [buildTree, hs]
    simp [hpop]
  · intro t
    rw [← hgrown.parents t]
    simp only [hlinks.parent]
  · intro y hy
    rw [hlinks.children, hgrown.children, (h.fresh y hy).children, nil_append]
    simp only [hlinks.parent]
  · intro x hx
    apply (hs'.closed x hx).resolve_right
    have hnone : ∀ l : List Nat, l.rtakeWhile (fun _ ↦ !true) = [] := by simp
    rw [hnone]
    exact not_mem_nil

end Hisab.Profiler.Collection
