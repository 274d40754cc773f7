import Hisab.Core.IntrusivePtr

/-!
# What a step does to the handles of a target

The variables and calls that a thread has before and after a part of a step, counted for each
target and role, and from it the counts of all threads.
-/

namespace Hisab.Core

open Base Function List

/-- What a variable stands for. -/
def shareOf (kind : Kind) (v : Option Nat) : List (Role × Nat) := (v.map (kind.role, ·)).toList

namespace Thread

/-- The thread after has lost and gained these, compared with the thread before. -/
def Changes (t t' : Thread) (lost gained : List (Role × Nat)) : Prop :=
  ∀ a, t'.shares.count a + lost.count a = t.shares.count a + gained.count a

variable {t t' t'' : Thread} {kind : Kind} {v old : Option Nat} {i : Nat}
  {lost lost' gained gained' : List (Role × Nat)}

theorem Changes.trans (h : t.Changes t' lost gained) (h' : t'.Changes t'' lost' gained') :
    t.Changes t'' (lost ++ lost') (gained ++ gained') := by
  intro a
  have h := h a
  have h' := h' a
  rw [count_append, count_append]
  omega

/-- What is lost and gained again is not counted. -/
theorem Changes.cancel (lost gained : List (Role × Nat)) {both : List (Role × Nat)}
    (h : t.Changes t' (lost ++ both) (gained ++ both)) : t.Changes t' lost gained := by
  intro a
  have h := h a
  rw [count_append, count_append] at h
  omega

theorem push_changes (t : Thread) (kind : Kind) (v : Option Nat) :
    t.Changes (t.push kind v) [] (shareOf kind v) := by
  intro a
  cases kind <;> cases v <;> simp [push, shares, shareOf, Kind.role, count_cons] <;> omega

/-- A value of a list is replaced. -/
theorem count_filterMap_set {A B : Type} [BEq B] (f : A → Option B) {l : List A} {i : Nat}
    {old : A} (h : l[i]? = some old) (v : A) (b : B) :
    ((l.set i v).filterMap f).count b + (f old).toList.count b =
      (l.filterMap f).count b + (f v).toList.count b := by
  induction l generalizing i with
  | nil => cases h
  | cons head tail ih =>
    cases i with
    | zero =>
      cases h
      rw [set_cons_zero, filterMap_cons, filterMap_cons]
      cases hv : f v <;> cases hold : f old <;> simp [count_cons, Nat.add_right_comm]
    | succ i =>
      have ih := ih h
      rw [set_cons_succ, filterMap_cons, filterMap_cons]
      cases hhead : f head with
      | none => exact ih
      | some b' =>
        rw [count_cons, count_cons]
        omega

theorem exchange_changes (h : t.exchange kind i v = some (old, t')) :
    t.Changes t' (shareOf kind old) (shareOf kind v) := by
  unfold exchange at h
  cases hold : (t.handles kind)[i]? with
  | none =>
    rw [hold] at h
    cases h
  | some old' =>
    rw [hold] at h
    cases h
    intro a
    have hset := count_filterMap_set (Option.map (kind.role, ·)) hold v a
    unfold shareOf
    cases kind with
    | strong =>
      simp only [shares, count_append, update_self,
        update_of_ne (show Kind.weak ≠ Kind.strong by decide)]
      simp only [Kind.role] at hset ⊢
      omega
    | weak =>
      simp only [shares, count_append, update_self,
        update_of_ne (show Kind.strong ≠ Kind.weak by decide)]
      simp only [Kind.role] at hset ⊢
      omega

theorem drop_changes (t : Thread) (kind : Kind) (v : Option Nat) :
    t.Changes (t.drop kind v) [] (shareOf kind v) := by
  intro a
  cases v with
  | none => simp [drop, shareOf]
  | some x =>
    cases kind <;> simp [drop, shares, shareOf, Kind.role, Pending.share, count_cons] <;> omega

/-- The innermost call goes on or returns. -/
theorem call_changes {calls : List Pending} {p : Pending} (h : t.pending = p :: calls)
    (q : Pending) :
    t.Changes { t with pending := q :: calls } p.share.toList q.share.toList := by
  intro a
  simp only [shares, h, filterMap_cons]
  cases p.share <;> cases q.share <;> simp [count_cons] <;> omega

theorem return_changes {calls : List Pending} {p : Pending} (h : t.pending = p :: calls) :
    t.Changes { t with pending := calls } p.share.toList [] := by
  intro a
  simp only [shares, h, filterMap_cons]
  cases p.share <;> simp [count_cons]
  omega

end Thread

end Hisab.Core
