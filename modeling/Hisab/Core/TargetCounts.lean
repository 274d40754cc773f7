import Hisab.Base.MachineIntegers

/-!
# The life of a counted target

A target with two counters in one word of 64 bits, as one sees it who knows all its handles: how
many handles and steps in progress there are of each role, the word, and what has happened. The
target goes through phases, and in each of them the word is what its handles say.
-/

namespace Hisab.Core

open Base Nat

/-- What a handle of a target, or a step in progress on it, stands for: a strong or a weak handle;
the only handle, about to store zero; the step that dropped the last strong handle, before and
after `release_resources`; and a step that is about to delete, with nothing left in the word or
with the weak count of the strong handles still there. -/
inductive Role
  | strong
  | unique
  | weak
  | releasing
  | dropping
  | deleting
  | deletingCounted
  deriving DecidableEq, Repr

/-- The role is that of a handle. -/
def Role.isHandle : Role → Bool
  | .strong | .unique | .weak => true
  | _ => false

/-- How many there are of each role, and the word. `deleted` and `released` count the calls, and
`weakAtDrop` is the number of weak handles as the last strong handle was dropped. -/
@[ext] structure Counts where
  strong : Nat := 0
  unique : Nat := 0
  weak : Nat := 0
  releasing : Nat := 0
  dropping : Nat := 0
  deleting : Nat := 0
  deletingCounted : Nat := 0
  word : Nat := 0
  deleted : Nat := 0
  released : Nat := 0
  weakAtDrop : Option Nat := none

/-- `kReferenceCountOne`, `kWeakReferenceCountOne` and `kUniqueRef` (`intrusive_ptr.h:43–45`). -/
def kReferenceCountOne : Nat := 1

def kWeakReferenceCountOne : Nat := 2 ^ 32

def kUniqueRef : Nat := kReferenceCountOne + kWeakReferenceCountOne

/-- `refcount` and `weakcount` (`intrusive_ptr.h:65–73`). -/
def refcount (word : Nat) : Nat := word % 2 ^ 32

def weakcount (word : Nat) : Nat := word / 2 ^ 32 % 2 ^ 32

namespace Counts

def gain (c : Counts) : Role → Counts
  | .strong => { c with strong := c.strong + 1 }
  | .unique => { c with unique := c.unique + 1 }
  | .weak => { c with weak := c.weak + 1 }
  | .releasing => { c with releasing := c.releasing + 1 }
  | .dropping => { c with dropping := c.dropping + 1 }
  | .deleting => { c with deleting := c.deleting + 1 }
  | .deletingCounted => { c with deletingCounted := c.deletingCounted + 1 }

def lose (c : Counts) : Role → Counts
  | .strong => { c with strong := c.strong - 1 }
  | .unique => { c with unique := c.unique - 1 }
  | .weak => { c with weak := c.weak - 1 }
  | .releasing => { c with releasing := c.releasing - 1 }
  | .dropping => { c with dropping := c.dropping - 1 }
  | .deleting => { c with deleting := c.deleting - 1 }
  | .deletingCounted => { c with deletingCounted := c.deletingCounted - 1 }

/-- How many of a role there are. -/
def of (c : Counts) : Role → Nat
  | .strong => c.strong
  | .unique => c.unique
  | .weak => c.weak
  | .releasing => c.releasing
  | .dropping => c.dropping
  | .deleting => c.deleting
  | .deletingCounted => c.deletingCounted

/-- The strong handles, those included that are being reset. -/
def strongHandles (c : Counts) : Nat := c.strong + c.unique

/-- The steps in progress that keep a weak count. -/
def inProgress (c : Counts) : Nat := c.releasing + c.dropping + c.deletingCounted

/-- What a target that has been made can go through. -/
inductive Step : Counts → Counts → Prop
  | copyStrong {c : Counts} (h : 0 < c.strong) :
      Step c { c.gain .strong with word := SizeT.add c.word kReferenceCountOne }
  | copyWeak {c : Counts} (h : 0 < c.strong ∨ 0 < c.weak) :
      Step c { c.gain .weak with word := SizeT.add c.word kWeakReferenceCountOne }
  | loadUnique {c : Counts} (h : 0 < c.strong) (hword : c.word = kUniqueRef) :
      Step c ((c.lose .strong).gain .unique)
  | storeZero {c : Counts} (h : 0 < c.unique) :
      Step c { (c.lose .unique).gain .deleting with word := 0, weakAtDrop := some c.weak }
  | dropStrong {c : Counts} (h : 0 < c.strong)
      (hne : refcount (SizeT.sub c.word kReferenceCountOne) ≠ 0) :
      Step c { c.lose .strong with word := SizeT.sub c.word kReferenceCountOne }
  | dropLastStrong {c : Counts} (h : 0 < c.strong)
      (hzero : refcount (SizeT.sub c.word kReferenceCountOne) = 0) :
      Step c { (c.lose .strong).gain
          (if SizeT.sub c.word kReferenceCountOne = kWeakReferenceCountOne then .deletingCounted
            else .releasing) with
        word := SizeT.sub c.word kReferenceCountOne, weakAtDrop := some c.weak }
  | release {c : Counts} (h : 0 < c.releasing) :
      Step c { (c.lose .releasing).gain .dropping with released := c.released + 1 }
  | dropWeak {c : Counts} {role : Role}
      (h : role = .weak ∧ 0 < c.weak ∨ role = .dropping ∧ 0 < c.dropping)
      (hne : weakcount (SizeT.sub c.word kWeakReferenceCountOne) ≠ 0) :
      Step c { c.lose role with word := SizeT.sub c.word kWeakReferenceCountOne }
  | dropLastWeak {c : Counts} {role : Role}
      (h : role = .weak ∧ 0 < c.weak ∨ role = .dropping ∧ 0 < c.dropping)
      (hzero : weakcount (SizeT.sub c.word kWeakReferenceCountOne) = 0) :
      Step c { (c.lose role).gain .deleting with
        word := SizeT.sub c.word kWeakReferenceCountOne }
  | lock {c : Counts} (h : 0 < c.weak) (hne : refcount c.word ≠ 0) :
      Step c { c.gain .strong with word := SizeT.add c.word kReferenceCountOne }
  | delete {c : Counts} {role : Role}
      (h : role = .deleting ∧ 0 < c.deleting ∨ role = .deletingCounted ∧ 0 < c.deletingCounted) :
      Step c { c.lose role with deleted := c.deleted + 1 }

/-- The word of two counters. -/
def combined (strong weak : Nat) : Nat := strong + 2 ^ 32 * weak

/-- Only a target that has been made takes a step. -/
theorem Step.pos {c c' : Counts} (h : Step c c') : ∃ role, 0 < c.of role := by
  cases h with
  | copyStrong h => exact ⟨.strong, h⟩
  | copyWeak h =>
    cases h with
    | inl h => exact ⟨.strong, h⟩
    | inr h => exact ⟨.weak, h⟩
  | loadUnique h => exact ⟨.strong, h⟩
  | storeZero h => exact ⟨.unique, h⟩
  | dropStrong h | dropLastStrong h => exact ⟨.strong, h⟩
  | release h => exact ⟨.releasing, h⟩
  | dropWeak h | dropLastWeak h =>
    cases h with
    | inl h => exact ⟨.weak, h.2⟩
    | inr h => exact ⟨.dropping, h.2⟩
  | lock h => exact ⟨.weak, h⟩
  | delete h =>
    cases h with
    | inl h => exact ⟨.deleting, h.2⟩
    | inr h => exact ⟨.deletingCounted, h.2⟩

/-- A step never undoes the making of the target. -/
theorem Step.ne_empty {c c' : Counts} (h : Step c c') : c' ≠ {} := by
  intro hempty
  have hword := congrArg Counts.word hempty
  cases h with
  | copyStrong => exact succ_ne_zero _ (congrArg Counts.strong hempty)
  | copyWeak => exact succ_ne_zero _ (congrArg Counts.weak hempty)
  | loadUnique => exact succ_ne_zero _ (congrArg Counts.unique hempty)
  | storeZero => exact succ_ne_zero _ (congrArg Counts.deleting hempty)
  | dropStrong h hne => exact hne (congrArg refcount hword)
  | dropLastStrong => exact Option.some_ne_none _ (congrArg Counts.weakAtDrop hempty)
  | release => exact succ_ne_zero _ (congrArg Counts.dropping hempty)
  | dropWeak h hne => exact hne (congrArg weakcount hword)
  | dropLastWeak => exact succ_ne_zero _ (congrArg Counts.deleting hempty)
  | lock => exact succ_ne_zero _ (congrArg Counts.strong hempty)
  | delete => exact succ_ne_zero _ (congrArg Counts.deleted hempty)

/-- The phases of a target. -/
inductive Phase : Counts → Prop
  | unmade : Phase {}
  | shared (strong weak : Nat) :
      Phase { strong := strong + 1, weak, word := combined (strong + 1) (weak + 1) }
  | unique : Phase { unique := 1, word := combined 1 1 }
  | releasing (weak k : Nat) :
      Phase { releasing := 1, weak, word := combined 0 (weak + 1), weakAtDrop := some (k + 1) }
  | dropping (weak k : Nat) :
      Phase { dropping := 1, weak, word := combined 0 (weak + 1), released := 1,
              weakAtDrop := some (k + 1) }
  | weakOnly (weak k : Nat) :
      Phase { weak := weak + 1, word := combined 0 (weak + 1), released := 1,
              weakAtDrop := some (k + 1) }
  | condemned : Phase { deleting := 1, word := combined 0 0, weakAtDrop := some 0 }
  | condemnedCounted : Phase { deletingCounted := 1, word := combined 0 1, weakAtDrop := some 0 }
  | condemnedReleased (k : Nat) :
      Phase { deleting := 1, word := combined 0 0, released := 1, weakAtDrop := some (k + 1) }
  | gone (word : Nat) : Phase { word, deleted := 1, weakAtDrop := some 0 }
  | goneReleased (word k : Nat) :
      Phase { word, deleted := 1, released := 1, weakAtDrop := some (k + 1) }

/-- Fewer handles than a half of the word can count. -/
def Bounded (c : Counts) : Prop := c.strong + c.unique + c.weak < 2 ^ 31

variable {c c' : Counts}

/-! ### The word -/

section Word

variable {strong weak : Nat}

theorem combined_lt (hs : strong < 2 ^ 32) (hw : weak < 2 ^ 32) :
    combined strong weak < SizeT.modulus := by
  unfold combined SizeT.modulus
  omega

theorem refcount_combined (hs : strong < 2 ^ 32) : refcount (combined strong weak) = strong := by
  unfold refcount combined
  omega

theorem weakcount_combined (hs : strong < 2 ^ 32) (hw : weak < 2 ^ 32) :
    weakcount (combined strong weak) = weak := by
  unfold weakcount combined
  omega

theorem combined_inj {strong' weak' : Nat} (hs : strong < 2 ^ 32) (hs' : strong' < 2 ^ 32) :
    combined strong weak = combined strong' weak' ↔ strong = strong' ∧ weak = weak' := by
  unfold combined
  omega

theorem add_one (hs : strong + 1 < 2 ^ 32) (hw : weak < 2 ^ 32) :
    SizeT.add (combined strong weak) kReferenceCountOne = combined (strong + 1) weak := by
  have hsum : combined strong weak + kReferenceCountOne = combined (strong + 1) weak := by
    unfold combined kReferenceCountOne
    omega
  rw [SizeT.add_eq (hsum ▸ combined_lt hs hw), hsum]

theorem add_weakOne (hs : strong < 2 ^ 32) (hw : weak + 1 < 2 ^ 32) :
    SizeT.add (combined strong weak) kWeakReferenceCountOne = combined strong (weak + 1) := by
  have hsum : combined strong weak + kWeakReferenceCountOne = combined strong (weak + 1) := by
    unfold combined kWeakReferenceCountOne
    omega
  rw [SizeT.add_eq (hsum ▸ combined_lt hs hw), hsum]

theorem sub_one (hs : strong + 1 < 2 ^ 32) (hw : weak < 2 ^ 32) :
    SizeT.sub (combined (strong + 1) weak) kReferenceCountOne = combined strong weak := by
  have hlt := combined_lt hs hw
  rw [SizeT.sub_eq (by unfold combined kReferenceCountOne; omega) hlt]
  unfold combined kReferenceCountOne
  omega

theorem sub_weakOne (hs : strong < 2 ^ 32) (hw : weak + 1 < 2 ^ 32) :
    SizeT.sub (combined strong (weak + 1)) kWeakReferenceCountOne = combined strong weak := by
  have hlt := combined_lt hs hw
  rw [SizeT.sub_eq (by unfold combined kWeakReferenceCountOne; omega) hlt]
  unfold combined kWeakReferenceCountOne
  omega

theorem one_dropped (hs : strong + 1 < 2 ^ 32) (hw : weak < 2 ^ 32) :
    SizeT.sub (combined (strong + 1) weak) kReferenceCountOne = combined strong weak ∧
      refcount (combined strong weak) = strong :=
  ⟨sub_one hs hw, refcount_combined (lt_of_succ_lt hs)⟩

theorem weakOne_dropped (hs : strong < 2 ^ 32) (hw : weak + 1 < 2 ^ 32) :
    SizeT.sub (combined strong (weak + 1)) kWeakReferenceCountOne = combined strong weak ∧
      weakcount (combined strong weak) = weak :=
  ⟨sub_weakOne hs hw, weakcount_combined hs (lt_of_succ_lt hw)⟩

end Word

/-! ### Every step keeps a phase -/

namespace Phase

theorem copyStrong (h : Phase c) (hs : 0 < c.strong) (hb : c.Bounded) :
    Phase { c.gain .strong with word := SizeT.add c.word kReferenceCountOne } := by
  cases h with
  | shared strong weak =>
    simp only [Bounded] at hb
    simp only [add_one (show strong + 1 + 1 < 2 ^ 32 by omega) (show weak + 1 < 2 ^ 32 by omega)]
    exact .shared (strong + 1) weak
  | _ => cases hs

theorem copyWeak (h : Phase c) (hs : 0 < c.strong ∨ 0 < c.weak) (hb : c.Bounded) :
    Phase { c.gain .weak with word := SizeT.add c.word kWeakReferenceCountOne } := by
  have hzero : 0 < 2 ^ 32 := Nat.two_pow_pos 32
  cases h with
  | shared strong weak =>
    simp only [Bounded] at hb
    simp only [add_weakOne (show strong + 1 < 2 ^ 32 by omega)
      (show weak + 1 + 1 < 2 ^ 32 by omega)]
    exact .shared strong (weak + 1)
  | releasing weak k =>
    simp only [Bounded] at hb
    simp only [add_weakOne hzero (show weak + 1 + 1 < 2 ^ 32 by omega)]
    exact .releasing (weak + 1) k
  | dropping weak k =>
    simp only [Bounded] at hb
    simp only [add_weakOne hzero (show weak + 1 + 1 < 2 ^ 32 by omega)]
    exact .dropping (weak + 1) k
  | weakOnly weak k =>
    simp only [Bounded] at hb
    simp only [add_weakOne hzero (show weak + 1 + 1 < 2 ^ 32 by omega)]
    exact .weakOnly (weak + 1) k
  | _ => exact (lt_irrefl 0 (hs.elim id id)).elim

theorem loadUnique (h : Phase c) (hs : 0 < c.strong) (hb : c.Bounded)
    (hword : c.word = kUniqueRef) : Phase ((c.lose .strong).gain .unique) := by
  cases h with
  | shared strong weak =>
    simp only [Bounded] at hb
    have hone : combined (strong + 1) (weak + 1) = combined 1 1 := hword
    rw [combined_inj (by omega) (by decide)] at hone
    have hstrong' : strong = 0 := by omega
    have hweak' : weak = 0 := by omega
    subst hstrong' hweak'
    exact .unique
  | _ => cases hs

theorem storeZero (h : Phase c) (hs : 0 < c.unique) :
    Phase { (c.lose .unique).gain .deleting with word := 0, weakAtDrop := some c.weak } := by
  cases h with
  | unique => exact .condemned
  | _ => cases hs

theorem dropStrong (h : Phase c) (hs : 0 < c.strong) (hb : c.Bounded)
    (hne : refcount (SizeT.sub c.word kReferenceCountOne) ≠ 0) :
    Phase { c.lose .strong with word := SizeT.sub c.word kReferenceCountOne } := by
  cases h with
  | shared strong weak =>
    simp only [Bounded] at hb
    have hdrop := one_dropped (show strong + 1 < 2 ^ 32 by omega) (show weak + 1 < 2 ^ 32 by omega)
    simp only [hdrop] at hne ⊢
    obtain ⟨strong, rfl⟩ := exists_eq_succ_of_ne_zero hne
    exact .shared strong weak
  | _ => cases hs

theorem dropLastStrong (h : Phase c) (hs : 0 < c.strong) (hb : c.Bounded)
    (hzero : refcount (SizeT.sub c.word kReferenceCountOne) = 0) :
    Phase { (c.lose .strong).gain
        (if SizeT.sub c.word kReferenceCountOne = kWeakReferenceCountOne then .deletingCounted
          else .releasing) with
      word := SizeT.sub c.word kReferenceCountOne, weakAtDrop := some c.weak } := by
  cases h with
  | shared strong weak =>
    simp only [Bounded] at hb
    have hdrop := one_dropped (show strong + 1 < 2 ^ 32 by omega) (show weak + 1 < 2 ^ 32 by omega)
    simp only [hdrop] at hzero ⊢
    subst hzero
    cases weak with
    | zero => exact .condemnedCounted
    | succ weak =>
      have hne : combined 0 (weak + 1 + 1) ≠ kWeakReferenceCountOne := by
        unfold combined kWeakReferenceCountOne
        omega
      rw [if_neg hne]
      exact .releasing (weak + 1) weak
  | _ => cases hs

theorem release (h : Phase c) (hs : 0 < c.releasing) :
    Phase { (c.lose .releasing).gain .dropping with released := c.released + 1 } := by
  cases h with
  | releasing weak k => exact .dropping weak k
  | _ => cases hs

/-- The phases in which there is a weak handle to drop. -/
theorem dropWeakHandle (h : Phase c) (hs : 0 < c.weak) (hb : c.Bounded) :
    (weakcount (SizeT.sub c.word kWeakReferenceCountOne) ≠ 0 →
      Phase { c.lose .weak with word := SizeT.sub c.word kWeakReferenceCountOne }) ∧
    (weakcount (SizeT.sub c.word kWeakReferenceCountOne) = 0 →
      Phase { (c.lose .weak).gain .deleting with
        word := SizeT.sub c.word kWeakReferenceCountOne }) := by
  have hpos : 0 < 2 ^ 32 := Nat.two_pow_pos 32
  cases h with
  | shared strong weak =>
    simp only [Bounded] at hb
    obtain ⟨weak, rfl⟩ := exists_eq_succ_of_ne_zero (ne_of_gt hs)
    simp only [weakOne_dropped (show strong + 1 < 2 ^ 32 by omega) (show weak + 2 < 2 ^ 32 by omega)]
    exact ⟨fun _ ↦ .shared strong weak, nofun⟩
  | releasing weak k =>
    simp only [Bounded] at hb
    obtain ⟨weak, rfl⟩ := exists_eq_succ_of_ne_zero (ne_of_gt hs)
    simp only [weakOne_dropped hpos (show weak + 2 < 2 ^ 32 by omega)]
    exact ⟨fun _ ↦ .releasing weak k, nofun⟩
  | dropping weak k =>
    simp only [Bounded] at hb
    obtain ⟨weak, rfl⟩ := exists_eq_succ_of_ne_zero (ne_of_gt hs)
    simp only [weakOne_dropped hpos (show weak + 2 < 2 ^ 32 by omega)]
    exact ⟨fun _ ↦ .dropping weak k, nofun⟩
  | weakOnly weak k =>
    simp only [Bounded] at hb
    simp only [weakOne_dropped hpos (show weak + 1 < 2 ^ 32 by omega)]
    cases weak with
    | zero => exact ⟨fun h ↦ absurd rfl h, fun _ ↦ .condemnedReleased k⟩
    | succ weak => exact ⟨fun _ ↦ .weakOnly weak k, nofun⟩
  | _ => cases hs

/-- The weak count that the strong handles had is dropped. -/
theorem dropOwnCount (h : Phase c) (hs : 0 < c.dropping) (hb : c.Bounded) :
    (weakcount (SizeT.sub c.word kWeakReferenceCountOne) ≠ 0 →
      Phase { c.lose .dropping with word := SizeT.sub c.word kWeakReferenceCountOne }) ∧
    (weakcount (SizeT.sub c.word kWeakReferenceCountOne) = 0 →
      Phase { (c.lose .dropping).gain .deleting with
        word := SizeT.sub c.word kWeakReferenceCountOne }) := by
  have hpos : 0 < 2 ^ 32 := Nat.two_pow_pos 32
  cases h with
  | dropping weak k =>
    simp only [Bounded] at hb
    simp only [weakOne_dropped hpos (show weak + 1 < 2 ^ 32 by omega)]
    cases weak with
    | zero => exact ⟨fun h ↦ absurd rfl h, fun _ ↦ .condemnedReleased k⟩
    | succ weak => exact ⟨fun _ ↦ .weakOnly weak k, nofun⟩
  | _ => cases hs

theorem lock (h : Phase c) (hs : 0 < c.weak) (hb : c.Bounded) (hne : refcount c.word ≠ 0) :
    Phase { c.gain .strong with word := SizeT.add c.word kReferenceCountOne } := by
  cases h with
  | shared strong weak => exact (Phase.shared strong weak).copyStrong (succ_pos _) hb
  | releasing weak k => exact absurd (refcount_combined (by decide)) hne
  | dropping weak k | weakOnly weak k => exact absurd (refcount_combined (by decide)) hne
  | _ => cases hs

theorem delete {role : Role} (h : Phase c)
    (hrole : role = .deleting ∧ 0 < c.deleting ∨ role = .deletingCounted ∧ 0 < c.deletingCounted) :
    Phase { c.lose role with deleted := c.deleted + 1 } := by
  cases h with
  | condemned =>
    cases hrole with
    | inl hrole =>
      cases hrole.1
      exact .gone _
    | inr hrole => cases hrole.2
  | condemnedCounted =>
    cases hrole with
    | inl hrole => cases hrole.2
    | inr hrole =>
      cases hrole.1
      exact .gone _
  | condemnedReleased k =>
    cases hrole with
    | inl hrole =>
      cases hrole.1
      exact .goneReleased _ k
    | inr hrole => cases hrole.2
  | _ => exact (lt_irrefl 0 (hrole.elim And.right And.right)).elim

/-- A target with fewer handles than the word can count goes from phase to phase. -/
theorem step (h : Phase c) (hb : c.Bounded) (hstep : Step c c') : Phase c' := by
  cases hstep with
  | copyStrong hs => exact h.copyStrong hs hb
  | copyWeak hs => exact h.copyWeak hs hb
  | loadUnique hs hword => exact h.loadUnique hs hb hword
  | storeZero hs => exact h.storeZero hs
  | dropStrong hs hne => exact h.dropStrong hs hb hne
  | dropLastStrong hs hzero => exact h.dropLastStrong hs hb hzero
  | release hs => exact h.release hs
  | dropWeak hrole hne =>
    cases hrole with
    | inl hrole =>
      cases hrole.1
      exact (h.dropWeakHandle hrole.2 hb).1 hne
    | inr hrole =>
      cases hrole.1
      exact (h.dropOwnCount hrole.2 hb).1 hne
  | dropLastWeak hrole hzero =>
    cases hrole with
    | inl hrole =>
      cases hrole.1
      exact (h.dropWeakHandle hrole.2 hb).2 hzero
    | inr hrole =>
      cases hrole.1
      exact (h.dropOwnCount hrole.2 hb).2 hzero
  | lock hs hne => exact h.lock hs hb hne
  | delete hrole => exact h.delete hrole

/-! ### What the phases say -/

/-- The word of a target that has not been deleted. -/
theorem word_eq (h : Phase c) (hlive : c.deleted = 0) : c.word = combined c.strongHandles
      (c.weak + (if c.strongHandles = 0 then 0 else 1) + c.inProgress) := by
  cases h with
  | gone | goneReleased => cases hlive
  | _ => rfl

theorem bounds (h : Phase c) (hb : c.Bounded) :
    c.strongHandles < 2 ^ 31 ∧ c.weak < 2 ^ 31 ∧ c.inProgress ≤ 1 := by
  unfold Bounded at hb
  unfold strongHandles
  refine ⟨by omega, by omega, ?_⟩
  cases h <;> first | exact le_refl 1 | exact zero_le 1

theorem deleted_le (h : Phase c) : c.deleted ≤ 1 := by
  cases h <;> first | exact le_refl 1 | exact zero_le 1

/-- The resources are released at most once, and only if weak handles were left. -/
theorem released_le (h : Phase c) :
    c.released ≤ 1 ∧ (c.released = 1 → ∃ k, 0 < k ∧ c.weakAtDrop = some k) := by
  cases h with
  | dropping weak k | weakOnly weak k => exact ⟨le_refl 1, fun _ ↦ ⟨k + 1, succ_pos k, rfl⟩⟩
  | condemnedReleased k => exact ⟨le_refl 1, fun _ ↦ ⟨k + 1, succ_pos k, rfl⟩⟩
  | goneReleased word k => exact ⟨le_refl 1, fun _ ↦ ⟨k + 1, succ_pos k, rfl⟩⟩
  | _ => exact ⟨zero_le 1, nofun⟩

/-- A target has been deleted if and only if nothing of it is left. -/
theorem deleted_iff (h : Phase c) (hmade : c ≠ {}) : c.deleted = 1 ↔ ∀ role, c.of role = 0 := by
  cases h with
  | unmade => exact absurd rfl hmade
  | gone word | goneReleased word k => exact iff_of_true rfl fun role ↦ by cases role <;> rfl
  | shared strong weak => exact iff_of_false (fun h ↦ by cases h) fun h ↦ by cases h .strong
  | unique => exact iff_of_false (fun h ↦ by cases h) fun h ↦ by cases h .unique
  | releasing weak k => exact iff_of_false (fun h ↦ by cases h) fun h ↦ by cases h .releasing
  | dropping weak k => exact iff_of_false (fun h ↦ by cases h) fun h ↦ by cases h .dropping
  | weakOnly weak k => exact iff_of_false (fun h ↦ by cases h) fun h ↦ by cases h .weak
  | condemned => exact iff_of_false (fun h ↦ by cases h) fun h ↦ by cases h .deleting
  | condemnedCounted => exact iff_of_false (fun h ↦ by cases h) fun h ↦ by cases h .deletingCounted
  | condemnedReleased k => exact iff_of_false (fun h ↦ by cases h) fun h ↦ by cases h .deleting

/-- The last strong handle is never followed by another. -/
theorem strong_stays_zero (h : Phase c) (hmade : c ≠ {}) (hzero : c.strongHandles = 0)
    (hstep : Step c c') : c'.strongHandles = 0 := by
  unfold strongHandles at *
  cases hstep with
  | lock hs hne =>
    -- The word has no strong count to take a lock on.
    cases hdeleted : c.deleted with
    | zero =>
      rw [h.word_eq hdeleted, strongHandles, hzero, refcount_combined (Nat.two_pow_pos 32)] at hne
      exact absurd rfl hne
    | succ d =>
      have hgone := (h.deleted_iff hmade).mp (by have := h.deleted_le; omega) .weak
      rw [of] at hgone
      omega
  | copyWeak hs | release hs => exact hzero
  | dropWeak hrole hne | dropLastWeak hrole hne | delete hrole =>
    cases hrole with
    | inl hrole | inr hrole =>
      cases hrole.1
      exact hzero
  | copyStrong hs | loadUnique hs | storeZero hs | dropStrong hs | dropLastStrong hs => omega

end Phase

end Counts

end Hisab.Core
