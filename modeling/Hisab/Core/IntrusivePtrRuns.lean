import Hisab.Core.IntrusivePtrSteps

/-!
# Reference counting is exact

In every run of the threads, as long as there are fewer handles than a half of the word can count,
each target goes from phase to phase.
-/

namespace Hisab.Core

open Base Thread PtrState

variable {n i x : Nat} {s s₁ s' : PtrState} {t t' : Thread} {kind : Kind} {v old : Option Nat}
  {lost gained : List (Role × Nat)} {spurious : Bool}

namespace PtrState

/-! ### The calls -/

theorem refines_self (n : Nat) (s : PtrState) : Refines n s s := ⟨rfl, fun _ ↦ .inl rfl⟩

theorem bind_eq_some_iff {A B : Type} {o : Option A} {f : A → Option B} {b : B} :
    (o >>= f) = some b ↔ ∃ a, o = some a ∧ f a = some b :=
  Option.bind_eq_some_iff

/-- An assignment of a copy: the variable gains the new value, and a call has the old one. -/
theorem assign_changes {k : Nat} (h : t.exchange kind k v = some (old, t')) :
    t.Changes (t'.drop kind old) [] (shareOf kind v) := by
  intro a
  have hexchange := exchange_changes h a
  have hdrop := drop_changes t' kind old a
  omega

/-- What a call does up to its first atomic step, but for the making of a target. -/
theorem refines_call (hi : i < n) {op : PtrOp} (hmake : op ≠ .make)
    (hnext : s.call n i (s.threads i) op = some s') : Refines n s s' := by
  cases op with
  | make => exact absurd rfl hmake
  | step spurious => cases hnext
  | null kind =>
    cases hnext
    exact refines_of_same hi (push_changes _ kind none)
  | copy kind j =>
    obtain ⟨v, hv, hnext⟩ := bind_eq_some_iff.mp hnext
    cases hnext
    exact refines_retain hi (push_changes _ kind v) (handle_pos_kind hi hv)
  | move kind j =>
    obtain ⟨⟨v, t⟩, hv, hnext⟩ := bind_eq_some_iff.mp hnext
    cases hnext
    apply refines_of_same hi
    intro a
    have hexchange := exchange_changes hv a
    have hpush := push_changes t kind v a
    simp only [shareOf, Option.map_none, Option.toList_none] at hexchange hpush ⊢
    omega
  | copyAssign kind k j =>
    simp only [call] at hnext
    split at hnext
    · cases hnext
      exact refines_self n s
    · obtain ⟨v, hv, hnext⟩ := bind_eq_some_iff.mp hnext
      obtain ⟨⟨old, t⟩, hold, hnext⟩ := bind_eq_some_iff.mp hnext
      cases hnext
      exact refines_retain hi (assign_changes hold) (handle_pos_kind hi hv)
  | moveAssign kind k j =>
    obtain ⟨⟨v, t⟩, hv, hnext⟩ := bind_eq_some_iff.mp hnext
    obtain ⟨⟨old, t'⟩, hold, hnext⟩ := bind_eq_some_iff.mp hnext
    cases hnext
    apply refines_of_same hi
    intro a
    have hexchange := exchange_changes hv a
    have hassign := assign_changes hold a
    simp only [shareOf, Option.map_none, Option.toList_none, List.count_nil] at hexchange hassign ⊢
    omega
  | reset kind k =>
    obtain ⟨⟨old, t⟩, hold, hnext⟩ := bind_eq_some_iff.mp hnext
    cases hnext
    exact refines_of_same hi (assign_changes hold)
  | weaken j =>
    obtain ⟨v, hv, hnext⟩ := bind_eq_some_iff.mp hnext
    cases hnext
    exact refines_retain hi (push_changes _ .weak v) (fun x hx ↦ .inl (handle_pos hi hv x hx))
  | weakAssign k j =>
    obtain ⟨v, hv, hnext⟩ := bind_eq_some_iff.mp hnext
    obtain ⟨⟨old, t⟩, hold, hnext⟩ := bind_eq_some_iff.mp hnext
    cases hnext
    exact refines_retain hi (assign_changes hold) (fun x hx ↦ .inl (handle_pos hi hv x hx))
  | lock j =>
    obtain ⟨v, hv, hnext⟩ := bind_eq_some_iff.mp hnext
    cases v with
    | none =>
      cases hnext
      exact refines_of_same hi (push_changes _ .strong none)
    | some x =>
      cases hnext
      apply refines_of_same hi
      intro a
      rfl
  | give kind j receiver =>
    simp only [call] at hnext
    split at hnext
    · next hreceiver =>
      obtain ⟨⟨v, t⟩, hv, hnext⟩ := bind_eq_some_iff.mp hnext
      cases hnext
      refine ⟨rfl, fun x ↦ .inl (counts_eq ?_ rfl rfl rfl rfl)⟩
      intro role
      have hgiven := count_setThread hi (exchange_changes hv) (role, x)
      have htaken := count_setThread (s := s.setThread i t) hreceiver
        (push_changes _ kind v) (role, x)
      rw [← of_counts, ← of_counts] at hgiven htaken
      exact htaken.trans hgiven
    · cases hnext

/-! ### The invariant -/

/-- Every target is in a phase, and those that are not made yet are untouched. -/
structure Inv (n : Nat) (s : PtrState) : Prop where
  phase : ∀ x, (s.counts n x).Phase
  fresh : ∀ x, s.counts n x = {} ↔ s.made ≤ x

theorem shares_init (n : Nat) : ({} : PtrState).shares n = [] := by
  simp [shares, held, Thread.shares]

theorem inv_init (n : Nat) : Inv n {} := by
  have hcounts : ∀ x, ({} : PtrState).counts n x = {} := by
    intro x
    refine counts_eq ?_ rfl rfl rfl rfl
    intro role
    rw [of_counts, shares_init]
    cases role <;> rfl
  constructor
  · intro x
    rw [hcounts]
    exact .unmade
  · intro x
    exact iff_of_true (hcounts x) (Nat.zero_le x)

/-- A made target has its first handle, and the others stay. -/
theorem counts_make (hi : i < n) (hfresh : s.counts n s.made = {})
    (hnext : s.call n i (s.threads i) .make = some s') :
    s'.made = s.made + 1 ∧ s'.counts n s.made = { strong := 1, word := Counts.combined 1 1 } ∧
        ∀ y, y ≠ s.made → s'.counts n y = s.counts n y := by
  cases hnext
  have hcount := fun a ↦ count_setThread
    (s := { s.setWord s.made kUniqueRef with made := s.made + 1 }) hi
    (push_changes (s.threads i) .strong (some s.made)) a
  refine ⟨rfl, ?_, fun y hy ↦ ?_⟩
  · refine counts_eq ?_ (setWord_word_self s s.made _) (congrArg Counts.deleted hfresh)
      (congrArg Counts.released hfresh) (congrArg Counts.weakAtDrop hfresh)
    intro role
    have hrole := hcount (role, s.made)
    have hzero : (s.shares n).count (role, s.made) = 0 := by
      rw [← of_counts, hfresh]
      cases role <;> rfl
    have hshares : (shares n { s.setWord s.made kUniqueRef with
        made := s.made + 1 }).count (role, s.made) = 0 := hzero
    rw [hshares] at hrole
    rw [of_counts]
    cases role <;> simpa [shareOf, Kind.role, Counts.of] using hrole
  · refine counts_eq ?_ (Function.update_of_ne hy ..) rfl rfl rfl
    intro role
    have hrole := hcount (role, y)
    have hne : (Role.strong, s.made) ≠ (role, y) := fun h ↦ hy (Prod.mk.inj h).2.symm
    have hgained : (shareOf .strong (some s.made)).count (role, y) = 0 := by
      simp [shareOf, Kind.role, hne]
    rw [hgained] at hrole
    rw [of_counts, of_counts]
    exact hrole

namespace Inv

/-- A step keeps the invariant as long as the word can count the handles. -/
theorem of_refines (h : Inv n s) (hb : ∀ x, (s.counts n x).Bounded) (hr : Refines n s s') :
    Inv n s' := by
  constructor
  · intro x
    cases hr.step x with
    | inl heq => exact heq ▸ h.phase x
    | inr hstep => exact (h.phase x).step (hb x) hstep
  · intro x
    rw [hr.made]
    cases hr.step x with
    | inl heq =>
      rw [heq]
      exact h.fresh x
    | inr hstep =>
      refine iff_of_false hstep.ne_empty fun hle ↦ ?_
      obtain ⟨role, hpos⟩ := hstep.pos
      rw [(h.fresh x).mpr hle] at hpos
      cases role <;> cases hpos

theorem make (h : Inv n s) (hi : i < n) (hnext : s.call n i (s.threads i) .make = some s') :
    Inv n s' := by
  obtain ⟨hmade, hnew, hothers⟩ := counts_make hi ((h.fresh s.made).mpr (Nat.le_refl _)) hnext
  constructor
  · intro x
    by_cases hx : x = s.made
    · subst hx
      rw [hnew]
      exact .shared 0 0
    · rw [hothers x hx]
      exact h.phase x
  · intro x
    by_cases hx : x = s.made
    · subst hx
      rw [hnew]
      exact iff_of_false (fun h ↦ by cases congrArg Counts.strong h) (by omega)
    · rw [hothers x hx, h.fresh x]
      omega

end Inv

variable {l : Nat × PtrOp}

/-- What a step that is taken is. -/
theorem next_cases (hnext : s.next n l = some s') : l.1 < n ∧ ((∃ spurious, l.2 = .step spurious ∧
      s.stepCall n l.1 (s.threads l.1) spurious = some s') ∨
      s.call n l.1 (s.threads l.1) l.2 = some s') := by
  obtain ⟨i, op⟩ := l
  simp only [next] at hnext
  split at hnext
  · next hi =>
    refine ⟨hi, ?_⟩
    cases op with
    | step spurious => exact .inl ⟨spurious, rfl, hnext⟩
    | _ =>
      right
      dsimp only at hnext
      split at hnext
      · exact hnext
      · cases hnext
  · cases hnext

theorem Inv.next (h : Inv n s) (hb : ∀ x, (s.counts n x).Bounded) (hnext : s.next n l = some s') :
    Inv n s' := by
  obtain ⟨hi, hstep | hcall⟩ := next_cases hnext
  · obtain ⟨spurious, -, hstep⟩ := hstep
    exact h.of_refines hb (refines_stepCall hi hstep)
  · by_cases hmake : l.2 = .make
    · rw [hmake] at hcall
      exact h.make hi hcall
    · exact h.of_refines hb (refines_call hi hmake hcall)

/-! ### The bound -/

/-- The handles that are alive, those included that are being reset. -/
def handlesAlive (n : Nat) (s : PtrState) : Nat := (s.shares n).countP fun a ↦ a.1.isHandle

theorem count_handles (l : List (Role × Nat)) (x : Nat) :
    l.count (.strong, x) + l.count (.unique, x) + l.count (.weak, x) ≤
      l.countP fun a ↦ a.1.isHandle := by
  induction l with
  | nil => exact Nat.le_refl 0
  | cons head tail ih =>
    obtain ⟨role, y⟩ := head
    rw [List.countP_cons]
    by_cases hy : y = x
    · cases role <;> simp [hy, Role.isHandle] at ih ⊢ <;> omega
    · cases role <;> simp [hy] at ih ⊢ <;> omega

theorem bounded_of_handlesAlive (h : handlesAlive n s < 2 ^ 31) (x : Nat) :
    (s.counts n x).Bounded :=
  Nat.lt_of_le_of_lt (count_handles (s.shares n) x) h

/-! ### What a step reads or writes -/

/-- The target whose word a call reads or writes next, or that it deletes. -/
def Pending.target (t : Thread) : Pending → Option Nat
  | .load x | .storeZero x | .decrement x | .releaseResources x | .weakDecrement x | .delete x _
  | .weakReset x => some x
  | .lockLoad j | .lockExchange j _ _ => (t.handles .weak)[j]?.join

/-- The target that a step reads or writes. -/
def touched (s : PtrState) : Nat × PtrOp → Option Nat
  | (_, .make) => some s.made
  | (i, .copy kind j) => ((s.threads i).handles kind)[j]?.join
  | (i, .copyAssign kind _ j) => ((s.threads i).handles kind)[j]?.join
  | (i, .weaken j) | (i, .weakAssign _ j) => ((s.threads i).handles .strong)[j]?.join
  | (i, .step _) =>
    match (s.threads i).pending with
    | [] => none
    | p :: _ => Pending.target (s.threads i) p
  | _ => none

theorem pos_of_handle (kind : Kind) {j : Nat} (hi : i < n)
    (h : ((s.threads i).handles kind)[j]?.join = some x) : ∃ role, 0 < (s.counts n x).of role :=
  ⟨kind.role, handle_pos hi (Option.join_eq_some_iff.mp h) x rfl⟩

/-- What a step touches is new, or there is a handle of it or a call on it. -/
theorem pos_of_touched (hi : l.1 < n) (h : s.touched l = some x) :
    l.2 = .make ∧ x = s.made ∨ ∃ role, 0 < (s.counts n x).of role := by
  obtain ⟨i, op⟩ := l
  cases op with
  | make =>
    cases h
    exact .inl ⟨rfl, rfl⟩
  | copy kind j | copyAssign kind k j => exact .inr (pos_of_handle kind hi h)
  | weaken j | weakAssign k j => exact .inr (pos_of_handle .strong hi h)
  | step spurious =>
    right
    simp only [touched] at h
    cases hp : (s.threads i).pending with
    | nil =>
      rw [hp] at h
      cases h
    | cons p calls =>
      rw [hp] at h
      cases p with
      | lockLoad j | lockExchange j expected hexpected => exact pos_of_handle .weak hi h
      | _ =>
        cases h
        exact ⟨_, pos_of_mem hi (mem_shares_of_pending hp rfl)⟩
  | _ => cases h

/-- A step touches no target that has been deleted. -/
theorem Inv.not_deleted (h : Inv n s) (hi : l.1 < n) (htouched : s.touched l = some x) :
    s.deleted x = 0 := by
  cases pos_of_touched hi htouched with
  | inl hmake =>
    rw [hmake.2]
    exact congrArg Counts.deleted ((h.fresh s.made).mpr (Nat.le_refl _))
  | inr hpos =>
    obtain ⟨role, hpos⟩ := hpos
    have hmade : s.counts n x ≠ {} := by
      intro hempty
      rw [hempty] at hpos
      cases role <;> cases hpos
    have hle := (h.phase x).deleted_le
    cases hdeleted : s.deleted x with
    | zero => rfl
    | succ d =>
      have hone : (s.counts n x).deleted = 1 := by
        have : (s.counts n x).deleted = d + 1 := hdeleted
        omega
      have hzero := ((h.phase x).deleted_iff hmade).mp hone role
      omega

/-- A target without a strong handle never has one again. -/
theorem Inv.strongHandles_zero (h : Inv n s) (hx : x < s.made)
    (hzero : (s.counts n x).strongHandles = 0) (hnext : s.next n l = some s') :
    (s'.counts n x).strongHandles = 0 ∧ x < s'.made := by
  have hmade : s.counts n x ≠ {} := fun hempty ↦ absurd ((h.fresh x).mp hempty) (Nat.not_le.mpr hx)
  have hrefines : Refines n s s' → (s'.counts n x).strongHandles = 0 ∧ x < s'.made := by
    intro hr
    rw [hr.made]
    refine ⟨?_, hx⟩
    cases hr.step x with
    | inl heq =>
      rw [heq]
      exact hzero
    | inr hstep => exact (h.phase x).strong_stays_zero hmade hzero hstep
  obtain ⟨hi, hstep | hcall⟩ := next_cases hnext
  · obtain ⟨spurious, -, hstep⟩ := hstep
    exact hrefines (refines_stepCall hi hstep)
  · by_cases hmake : l.2 = .make
    · rw [hmake] at hcall
      obtain ⟨hmade', -, hothers⟩ := counts_make hi ((h.fresh s.made).mpr (Nat.le_refl _)) hcall
      rw [hothers x (Nat.ne_of_lt hx), hmade']
      exact ⟨hzero, Nat.lt_succ_of_lt hx⟩
    · exact hrefines (refines_call hi hmake hcall)

end PtrState

/-- The runs in which fewer than `2 ^ 31` handles are alive. -/
def countedRuns (n : Nat) : TransitionSystem PtrState (Nat × PtrOp) :=
  (intrusivePtrs n).within fun s ↦ s.handlesAlive n < 2 ^ 31

theorem inv_of_reachable (h : (countedRuns n).Reachable s) :
    PtrState.Inv n s ∧ s.handlesAlive n < 2 ^ 31 := by
  refine h.invariant (I := fun s ↦ PtrState.Inv n s ∧ s.handlesAlive n < 2 ^ 31) ?_ ?_
  · intro s hs
    subst hs
    refine ⟨inv_init n, ?_⟩
    rw [handlesAlive, shares_init]
    exact Nat.two_pow_pos 31
  · intro s l s' hs hstep
    exact ⟨hs.1.next (bounded_of_handlesAlive hs.2) hstep.1, hstep.2⟩

/-- Reference counting is exact: the two halves of the word of a target count its handles; a target
without a strong handle never has one again, whatever is locked; its resources are released at most
once, and only if weak handles were left as the last strong one was dropped; it is deleted once, as
soon as nothing of it is left; and no step reads or writes it after that. -/
theorem reference_counting_exact (h : (countedRuns n).Reachable s) :
    (∀ x, x < s.made → s.deleted x = 0 → refcount (s.word x) = (s.counts n x).strongHandles ∧
      weakcount (s.word x) = (s.counts n x).weak +
        (if (s.counts n x).strongHandles = 0 then 0 else 1) + (s.counts n x).inProgress) ∧
    (∀ x, x < s.made → (s.counts n x).strongHandles = 0 →
      ∀ ls s', (countedRuns n).Run s ls s' → (s'.counts n x).strongHandles = 0) ∧
    (∀ x, s.released x ≤ 1 ∧ (s.released x = 1 → ∃ k, 0 < k ∧ s.weakAtDrop x = some k)) ∧
    (∀ x, x < s.made → s.deleted x ≤ 1 ∧ (s.deleted x = 1 ↔ ∀ role, (s.counts n x).of role = 0)) ∧
    ∀ l s' x, (intrusivePtrs n).step s l s' → s.touched l = some x → s.deleted x = 0 := by
  obtain ⟨hinv, hbound⟩ := inv_of_reachable h
  have hb := bounded_of_handlesAlive hbound
  have hmade : ∀ x, x < s.made → s.counts n x ≠ {} :=
    fun x hx hempty ↦ absurd ((hinv.fresh x).mp hempty) (Nat.not_le.mpr hx)
  refine ⟨?_, ?_, fun x ↦ (hinv.phase x).released_le, ?_, ?_⟩
  · intro x _ hlive
    have hword : s.word x = _ := (hinv.phase x).word_eq hlive
    obtain ⟨hstrong, hweak, hprogress⟩ := (hinv.phase x).bounds (hb x)
    rw [hword]
    refine ⟨Counts.refcount_combined (by omega), Counts.weakcount_combined (by omega) ?_⟩
    split <;> omega
  · intro x hx hzero ls s' hrun
    have hkept := hrun.invariant (I := fun s' ↦ (PtrState.Inv n s' ∧
        s'.handlesAlive n < 2 ^ 31) ∧ (s'.counts n x).strongHandles = 0 ∧ x < s'.made) ?_
      ⟨⟨hinv, hbound⟩, hzero, hx⟩
    · exact hkept.2.1
    · intro s₁ l s₂ hs₁ hstep
      exact ⟨⟨hs₁.1.1.next (bounded_of_handlesAlive hs₁.1.2) hstep.1, hstep.2⟩,
        hs₁.1.1.strongHandles_zero hs₁.2.2 hs₁.2.1 hstep.1⟩
  · intro x hx
    exact ⟨(hinv.phase x).deleted_le, (hinv.phase x).deleted_iff (hmade x hx)⟩
  · intro l s' x hstep htouched
    exact hinv.not_deleted (next_cases hstep).1 htouched

/-- A step of a run in which fewer than `2 ^ 31` handles are alive. -/
def countedNext (n : Nat) (s : PtrState) (l : Nat × PtrOp) : Option PtrState :=
  match s.next n l with
  | some s' => if s'.handlesAlive n < 2 ^ 31 then some s' else none
  | none => none

theorem countedNext_step {l : Nat × PtrOp} (h : countedNext n s l = some s') :
    (countedRuns n).step s l s' := by
  unfold countedNext at h
  cases hnext : s.next n l with
  | none =>
    rw [hnext] at h
    cases h
  | some t =>
    rw [hnext] at h
    simp only at h
    split at h
    · next hb =>
      cases h
      exact ⟨hnext, hb⟩
    · cases h

/-- A thread gives a weak handle away and drops its strong one, while the other thread locks: the
exchange fails, the resources are released, and the weak handle deletes the target. -/
def lostLock : List (Nat × PtrOp) :=
  [(0, .make), (0, .weaken 0), (0, .give .weak 0 1), (0, .reset .strong 0), (1, .lock 0),
    (1, .step false), (0, .step false), (0, .step false), (1, .step false), (0, .step false),
    (0, .step false), (1, .reset .weak 0), (1, .step false), (1, .step false)]

theorem reference_counting_exact_lostLock :
    ∃ s, (countedRuns 2).Reachable s ∧ s.made = 1 ∧ s.deleted 0 = 1 ∧ s.released 0 = 1 ∧
      ∀ role, (s.counts 2 0).of role = 0 := by
  have h : (countedRuns 2).Reachable ((lostLock.foldlM (countedNext 2) {}).getD {}) :=
    ⟨{}, lostLock, rfl, .of_foldlM (fun _ _ _ ↦ countedNext_step) rfl⟩
  refine ⟨_, h, rfl, rfl, rfl, ?_⟩
  exact ((reference_counting_exact h).2.2.2.1 0 (by decide)).2.mp rfl

end Hisab.Core
