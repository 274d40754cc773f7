import Hisab.Core.HandleShares

/-!
# Each step is a step in the life of one target

Every step of a thread leaves the counts of all targets or is a step in the life of one of them,
as one sees from what the thread has lost and gained.
-/

namespace Hisab.Core

open Base Function Counts Thread List

/-- No target is made, and each stays as it is or takes a step. -/
structure Refines (n : Nat) (s s' : PtrState) : Prop where
  made : s'.made = s.made
  step : ∀ x, s'.counts n x = s.counts n x ∨ Counts.Step (s.counts n x) (s'.counts n x)

variable {n i x : Nat} {s s₁ s' : PtrState} {t t' : Thread} {kind : Kind} {v old : Option Nat}
  {lost gained : List (Role × Nat)} {spurious : Bool}

namespace PtrState

theorem of_counts (n : Nat) (s : PtrState) (x : Nat) (role : Role) :
    (s.counts n x).of role = (s.shares n).count (role, x) := by
  cases role <;> rfl

theorem count_setThread (hi : i < n) (h : (s.threads i).Changes t' lost gained)
    (a : Role × Nat) : ((s.setThread i t').shares n).count a + lost.count a =
      (s.shares n).count a + gained.count a := by
  have hheld : (held Thread.shares n (update s.threads i t')).count a + _ = _ :=
    count_held_update hi t' a
  have h := h a
  have hafter : ((s.setThread i t').shares n).count a =
      (held Thread.shares n (update s.threads i t')).count a := rfl
  have hbefore : (s.shares n).count a = (held Thread.shares n s.threads).count a := rfl
  omega

/-- The counts are told by the role and the words. -/
theorem counts_eq {c : Counts} (hroles : ∀ role, (s.counts n x).of role = c.of role)
    (hword : s.word x = c.word) (hdeleted : s.deleted x = c.deleted)
    (hreleased : s.released x = c.released) (hweak : s.weakAtDrop x = c.weakAtDrop) :
    s.counts n x = c := by
  ext1
  · exact hroles .strong
  · exact hroles .unique
  · exact hroles .weak
  · exact hroles .releasing
  · exact hroles .dropping
  · exact hroles .deleting
  · exact hroles .deletingCounted
  · exact hword
  · exact hdeleted
  · exact hreleased
  · exact hweak

theorem count_map_pair (l : List Role) (role : Role) (x y : Nat) :
    (l.map (·, x)).count (role, y) = if x = y then l.count role else 0 := by
  induction l with
  | nil => simp
  | cons head tail ih =>
    rw [map_cons, count_cons, count_cons, ih]
    by_cases hx : x = y
    · simp [hx]
    · simp [hx]

/-- A step changes the handles and calls of one target, and what is stored of it. -/
theorem refines_of_changes (lost gained : List Role) (hi : i < n) {c : Counts}
    (hstep : Counts.Step (s.counts n x) c)
    (hchanges : (s.threads i).Changes t' (lost.map (·, x)) (gained.map (·, x)))
    (hthreads : s₁.threads = s.threads) (hmade : s₁.made = s.made)
    (hothers : ∀ y, y ≠ x → s₁.word y = s.word y ∧ s₁.deleted y = s.deleted y ∧
      s₁.released y = s.released y ∧ s₁.weakAtDrop y = s.weakAtDrop y)
    (hroles : ∀ role, c.of role + lost.count role = (s.counts n x).of role + gained.count role)
    (hword : s₁.word x = c.word) (hdeleted : s₁.deleted x = c.deleted)
    (hreleased : s₁.released x = c.released) (hweak : s₁.weakAtDrop x = c.weakAtDrop) :
    Refines n s (s₁.setThread i t') := by
  have hshares : s₁.shares n = s.shares n := by rw [shares, hthreads, shares]
  rw [← hthreads] at hchanges
  refine ⟨hmade, fun y ↦ ?_⟩
  by_cases hy : y = x
  · subst hy
    right
    have hcounts : (s₁.setThread i t').counts n y = c := by
      refine counts_eq ?_ hword hdeleted hreleased hweak
      intro role
      have hcount := count_setThread hi hchanges (role, y)
      have hroles := hroles role
      rw [count_map_pair, count_map_pair, if_pos rfl, if_pos rfl, hshares, ← of_counts,
        ← of_counts] at hcount
      omega
    rw [hcounts]
    exact hstep
  · left
    obtain ⟨hword, hdeleted, hreleased, hweak⟩ := hothers y hy
    refine counts_eq ?_ hword hdeleted hreleased hweak
    intro role
    have hcount := count_setThread hi hchanges (role, y)
    have hne : x ≠ y := fun h ↦ hy h.symm
    rw [count_map_pair, count_map_pair, if_neg hne, if_neg hne, hshares, ← of_counts,
      ← of_counts] at hcount
    omega

/-- A step that a thread takes for itself. -/
theorem refines_of_same (hi : i < n) (hchanges : (s.threads i).Changes t' [] []) :
    Refines n s (s.setThread i t') := by
  refine ⟨rfl, fun x ↦ .inl ?_⟩
  refine counts_eq ?_ rfl rfl rfl rfl
  intro role
  have hcount := count_setThread hi hchanges (role, x)
  rw [← of_counts, ← of_counts] at hcount
  omega

theorem pos_of_mem {role : Role} (hi : i < n) (h : (role, x) ∈ (s.threads i).shares) :
    0 < (s.counts n x).of role := by
  rw [of_counts]
  exact count_pos_iff.mpr (mem_held.mpr ⟨i, hi, h⟩)

theorem mem_shares_of_handle (kind : Kind) {j : Nat} (h : (t.handles kind)[j]? = some (some x)) :
    (kind.role, x) ∈ t.shares := by
  have hmem := mem_of_getElem? h
  unfold Thread.shares
  rw [mem_append, mem_append]
  cases kind with
  | strong => exact .inl (.inl (mem_filterMap.mpr ⟨some x, hmem, rfl⟩))
  | weak => exact .inl (.inr (mem_filterMap.mpr ⟨some x, hmem, rfl⟩))

theorem mem_shares_of_pending {p : Pending} {calls : List Pending} (h : t.pending = p :: calls)
    {a : Role × Nat} (hp : p.share = some a) : a ∈ t.shares := by
  unfold Thread.shares
  rw [mem_append, h]
  exact .inr (mem_filterMap.mpr ⟨p, mem_cons_self, hp⟩)

theorem setWord_word_self (s : PtrState) (x w : Nat) : (s.setWord x w).word x = w := update_self ..

theorem setWord_others (s : PtrState) (x w y : Nat) (h : y ≠ x) :
    (s.setWord x w).word y = s.word y ∧ (s.setWord x w).deleted y = s.deleted y ∧
      (s.setWord x w).released y = s.released y ∧ (s.setWord x w).weakAtDrop y = s.weakAtDrop y :=
  ⟨update_of_ne h .., rfl, rfl, rfl⟩

/-! ### Copies -/

/-- A handle is copied: the word counts the copy. -/
theorem refines_retain (hi : i < n) (hchanges : (s.threads i).Changes t' [] (shareOf kind v))
    (hhandle : ∀ x, v = some x → 0 < (s.counts n x).strong ∨
      kind = .weak ∧ 0 < (s.counts n x).weak) :
    Refines n s ((s.retain kind v).setThread i t') := by
  cases v with
  | none => exact refines_of_same hi hchanges
  | some x =>
    have hhandle := hhandle x rfl
    cases kind with
    | strong =>
      have hpos : 0 < (s.counts n x).strong := hhandle.resolve_right fun h ↦ by cases h.1
      refine refines_of_changes [] [.strong] hi (.copyStrong hpos) hchanges
        rfl rfl (setWord_others s x _) ?_ (setWord_word_self s x _) rfl rfl rfl
      intro role
      cases role <;> simp [of, gain]
    | weak =>
      have hpos : 0 < (s.counts n x).strong ∨ 0 < (s.counts n x).weak := hhandle.imp_right And.right
      refine refines_of_changes [] [.weak] hi (.copyWeak hpos) hchanges
        rfl rfl (setWord_others s x _) ?_ (setWord_word_self s x _) rfl rfl rfl
      intro role
      cases role <;> simp [of, gain]

/-- The copied variable is a handle. -/
theorem handle_pos (hi : i < n) {j : Nat} (h : ((s.threads i).handles kind)[j]? = some v) :
    ∀ x, v = some x → 0 < (s.counts n x).of kind.role := by
  intro x hv
  subst hv
  exact pos_of_mem hi (mem_shares_of_handle kind h)

theorem handle_pos_kind (hi : i < n) {j : Nat} (h : ((s.threads i).handles kind)[j]? = some v) :
    ∀ x, v = some x → 0 < (s.counts n x).strong ∨ kind = .weak ∧ 0 < (s.counts n x).weak := by
  intro x hv
  have hpos := handle_pos hi h x hv
  cases kind with
  | strong => exact .inl hpos
  | weak => exact .inr ⟨rfl, hpos⟩

/-! ### The calls in progress -/

variable {calls : List Pending}

theorem refines_load (hi : i < n) (h : (s.threads i).pending = .load x :: calls)
    (hnext : s.stepCall n i (s.threads i) spurious = some s') : Refines n s s' := by
  simp only [stepCall, h] at hnext
  have hpos : 0 < (s.counts n x).of .strong := pos_of_mem hi (mem_shares_of_pending h rfl)
  split at hnext
  · next hword =>
    cases hnext
    refine refines_of_changes [.strong] [.unique] hi
      (.loadUnique hpos hword) (call_changes h (.storeZero x)) rfl rfl
      (fun _ _ ↦ ⟨rfl, rfl, rfl, rfl⟩) ?_ rfl rfl rfl rfl
    intro role
    simp only [of] at hpos
    cases role <;> simp [of, gain, lose]
    omega
  · cases hnext
    exact refines_of_same hi (Thread.Changes.cancel [] [] (call_changes h (.decrement x)))

theorem refines_storeZero (hi : i < n) (h : (s.threads i).pending = .storeZero x :: calls)
    (hnext : s.stepCall n i (s.threads i) spurious = some s') : Refines n s s' := by
  simp only [stepCall, h] at hnext
  cases hnext
  have hpos : 0 < (s.counts n x).of .unique := pos_of_mem hi (mem_shares_of_pending h rfl)
  refine refines_of_changes [.unique] [.deleting] hi
    (.storeZero hpos) (call_changes h (.delete x false)) rfl rfl
    ?_ ?_ (setWord_word_self _ x 0) rfl rfl (update_self ..)
  · intro y hy
    exact ⟨update_of_ne hy .., rfl, rfl, update_of_ne hy ..⟩
  · intro role
    simp only [of] at hpos
    cases role <;> simp [of, gain, lose]
    omega

theorem refines_decrement (hi : i < n) (h : (s.threads i).pending = .decrement x :: calls)
    (hnext : s.stepCall n i (s.threads i) spurious = some s') : Refines n s s' := by
  simp only [stepCall, h] at hnext
  have hpos : 0 < (s.counts n x).of .strong := pos_of_mem hi (mem_shares_of_pending h rfl)
  split at hnext
  · next hzero =>
    cases hnext
    have hstep : Counts.Step (s.counts n x) _ := .dropLastStrong hpos hzero
    have hothers : ∀ y, y ≠ x →
        ((s.setWeakAtDrop n x).setWord x (SizeT.sub (s.word x) kReferenceCountOne)).word y =
          s.word y ∧ s.deleted y = s.deleted y ∧ s.released y = s.released y ∧
        (s.setWeakAtDrop n x).weakAtDrop y = s.weakAtDrop y :=
      fun y hy ↦ ⟨update_of_ne hy .., rfl, rfl, update_of_ne hy ..⟩
    have hword := setWord_word_self (s.setWeakAtDrop n x) x
      (SizeT.sub (s.word x) kReferenceCountOne)
    by_cases hlast : SizeT.sub (s.word x) kReferenceCountOne = kWeakReferenceCountOne
    · rw [if_pos (show SizeT.sub (s.counts n x).word kReferenceCountOne = _ from hlast)] at hstep
      rw [if_pos hlast]
      refine refines_of_changes [.strong] [.deletingCounted] hi hstep
        (call_changes h (.delete x true)) rfl rfl hothers ?_ hword rfl rfl
        (update_self ..)
      intro role
      simp only [of] at hpos
      cases role <;> simp [of, gain, lose]
      omega
    · rw [if_neg (show SizeT.sub (s.counts n x).word kReferenceCountOne ≠ _ from hlast)] at hstep
      rw [if_neg hlast]
      refine refines_of_changes [.strong] [.releasing] hi hstep
        (call_changes h (.releaseResources x)) rfl rfl hothers ?_ hword rfl rfl
        (update_self ..)
      intro role
      simp only [of] at hpos
      cases role <;> simp [of, gain, lose]
      omega
  · next hne =>
    cases hnext
    refine refines_of_changes [.strong] [] hi (.dropStrong hpos hne)
      (return_changes h) rfl rfl (setWord_others s x _) ?_ (setWord_word_self s x _) rfl rfl rfl
    intro role
    simp only [of] at hpos
    cases role <;> simp [of, lose]
    omega

theorem refines_release (hi : i < n) (h : (s.threads i).pending = .releaseResources x :: calls)
    (hnext : s.stepCall n i (s.threads i) spurious = some s') : Refines n s s' := by
  simp only [stepCall, h] at hnext
  cases hnext
  have hpos : 0 < (s.counts n x).of .releasing := pos_of_mem hi (mem_shares_of_pending h rfl)
  refine refines_of_changes [.releasing] [.dropping] hi (.release hpos)
    (call_changes h (.weakDecrement x)) rfl rfl ?_ ?_ rfl rfl (update_self ..) rfl
  · intro y hy
    exact ⟨rfl, rfl, update_of_ne hy .., rfl⟩
  · intro role
    simp only [of] at hpos
    cases role <;> simp [of, gain, lose]
    omega

/-- A weak count is dropped, that of a weak handle or that of the strong handles. -/
theorem refines_weakDecrement (hi : i < n) {p : Pending} {role : Role}
    (h : (s.threads i).pending = p :: calls) (hp : p.share = some (role, x))
    (hrole : role = .weak ∨ role = .dropping)
    (hnext : (if weakcount (SizeT.sub (s.word x) kWeakReferenceCountOne) = 0 then
        some ((s.setWord x (SizeT.sub (s.word x) kWeakReferenceCountOne)).setThread i
          { s.threads i with pending := .delete x false :: calls })
      else some ((s.setWord x (SizeT.sub (s.word x) kWeakReferenceCountOne)).setThread i
        { s.threads i with pending := calls })) = some s') : Refines n s s' := by
  have hpos : 0 < (s.counts n x).of role := pos_of_mem hi (mem_shares_of_pending h hp)
  have hdrop : role = .weak ∧ 0 < (s.counts n x).weak ∨
      role = .dropping ∧ 0 < (s.counts n x).dropping := by
    cases hrole with
    | inl hrole =>
      subst hrole
      exact .inl ⟨rfl, hpos⟩
    | inr hrole =>
      subst hrole
      exact .inr ⟨rfl, hpos⟩
  have hlost := return_changes h
  have hgained := call_changes h (.delete x false)
  rw [hp] at hlost hgained
  split at hnext
  · next hzero =>
    cases hnext
    refine refines_of_changes [role] [.deleting] hi
      (.dropLastWeak hdrop hzero) hgained rfl rfl (setWord_others s x _) ?_ ?_ ?_ ?_ ?_
    · intro q
      cases hrole with
      | inl hrole | inr hrole =>
        subst hrole
        simp only [of] at hpos
        cases q <;> simp [of, gain, lose]
        omega
    · exact setWord_word_self s x _
    all_goals
      cases hrole with
      | inl hrole | inr hrole =>
        subst hrole
        rfl
  · next hne =>
    cases hnext
    refine refines_of_changes [role] [] hi (.dropWeak hdrop hne) hlost rfl rfl
      (setWord_others s x _) ?_ ?_ ?_ ?_ ?_
    · intro q
      cases hrole with
      | inl hrole | inr hrole =>
        subst hrole
        simp only [of] at hpos
        cases q <;> simp [of, lose]
        omega
    · exact setWord_word_self s x _
    all_goals
      cases hrole with
      | inl hrole | inr hrole =>
        subst hrole
        rfl

theorem refines_delete (hi : i < n) {counted : Bool}
    (h : (s.threads i).pending = .delete x counted :: calls)
    (hnext : s.stepCall n i (s.threads i) spurious = some s') : Refines n s s' := by
  simp only [stepCall, h] at hnext
  cases hnext
  have hothers : ∀ y, y ≠ x → s.word y = s.word y ∧
      update s.deleted x (s.deleted x + 1) y = s.deleted y ∧
      s.released y = s.released y ∧ s.weakAtDrop y = s.weakAtDrop y :=
    fun y hy ↦ ⟨rfl, update_of_ne hy .., rfl, rfl⟩
  cases counted with
  | false =>
    have hpos : 0 < (s.counts n x).of .deleting := pos_of_mem hi (mem_shares_of_pending h rfl)
    refine refines_of_changes [.deleting] [] hi
      (.delete (.inl ⟨rfl, hpos⟩)) (return_changes h) rfl rfl hothers ?_ rfl
      (update_self ..) rfl rfl
    intro role
    simp only [of] at hpos
    cases role <;> simp [of, lose]
    omega
  | true =>
    have hpos : 0 < (s.counts n x).of .deletingCounted :=
      pos_of_mem hi (mem_shares_of_pending h rfl)
    refine refines_of_changes [.deletingCounted] [] hi
      (.delete (.inr ⟨rfl, hpos⟩)) (return_changes h) rfl rfl hothers ?_ rfl
      (update_self ..) rfl rfl
    intro role
    simp only [of] at hpos
    cases role <;> simp [of, lose]
    omega

/-- A call that has no share goes on or returns, with a new variable. -/
theorem refines_lockLoad (hi : i < n) {j : Nat} (h : (s.threads i).pending = .lockLoad j :: calls)
    (hnext : s.stepCall n i (s.threads i) spurious = some s') : Refines n s s' := by
  simp only [stepCall, h] at hnext
  split at hnext
  · split at hnext
    · next hne =>
      cases hnext
      exact refines_of_same hi (call_changes h (.lockExchange j _ hne))
    · cases hnext
      exact refines_of_same hi ((return_changes h).trans (push_changes _ .strong none))
  · cases hnext

theorem refines_lockExchange (hi : i < n) {j expected : Nat} {hexpected : refcount expected ≠ 0}
    (h : (s.threads i).pending = .lockExchange j expected hexpected :: calls)
    (hnext : s.stepCall n i (s.threads i) spurious = some s') : Refines n s s' := by
  simp only [stepCall, h] at hnext
  split at hnext
  · next x hhandle =>
    split at hnext
    · next hword =>
      cases hnext
      have hpos : 0 < (s.counts n x).weak := pos_of_mem hi (mem_shares_of_handle .weak hhandle)
      have hne : refcount (s.counts n x).word ≠ 0 := by
        rw [show (s.counts n x).word = s.word x from rfl, hword.1]
        exact hexpected
      have hchanges := (return_changes h).trans
        (push_changes { s.threads i with pending := calls } .strong (some x))
      refine refines_of_changes [] [.strong] hi (.lock hpos hne) hchanges rfl rfl
        (setWord_others s x _) ?_ ?_ rfl rfl rfl
      · intro role
        cases role <;> simp [of, gain]
      · rw [setWord_word_self, ← hword.1]
        rfl
    · split at hnext
      · next hne =>
        cases hnext
        exact refines_of_same hi (call_changes h (.lockExchange j _ hne))
      · cases hnext
        exact refines_of_same hi ((return_changes h).trans (push_changes _ .strong none))
  · cases hnext

/-- A step of a call is a step in the life of its target. -/
theorem refines_stepCall (hi : i < n)
    (hnext : s.stepCall n i (s.threads i) spurious = some s') : Refines n s s' := by
  cases h : (s.threads i).pending with
  | nil =>
    simp only [stepCall, h] at hnext
    cases hnext
  | cons p calls =>
    cases p with
    | load x => exact refines_load hi h hnext
    | storeZero x => exact refines_storeZero hi h hnext
    | decrement x => exact refines_decrement hi h hnext
    | releaseResources x => exact refines_release hi h hnext
    | weakDecrement x =>
      simp only [stepCall, h] at hnext
      exact refines_weakDecrement hi h rfl (.inr rfl) hnext
    | delete x counted => exact refines_delete hi h hnext
    | weakReset x =>
      simp only [stepCall, h] at hnext
      exact refines_weakDecrement hi h rfl (.inl rfl) hnext
    | lockLoad j => exact refines_lockLoad hi h hnext
    | lockExchange j expected hexpected => exact refines_lockExchange hi h hnext

end PtrState

end Hisab.Core
