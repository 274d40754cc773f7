import Hisab.Base.UniqueOwner
import Hisab.Vectorization.ShapeSpecs
import Hisab.Vectorization.StorageLaws
import Hisab.Vectorization.TensorSteps

/-!
# Who owns the storage

Each buffer that a program over tensors has allocated is owned by one of its tensors until it
is freed, and it is freed once.
-/

namespace Hisab.Vectorization

open Hisab.Base Function Tensor Heap

variable {α : Type} {T : SimdTarget} {h h' : Heap α} {t : Tensor} {b origin : Nat} {fresh : Nat → α}

/-- The buffer that a tensor owns. -/
def Tensor.ownedBuffer (t : Tensor) : Option Nat :=
  if t.owner.allocated then t.owner.data.map Pointer.buffer else none

/-- The buffer that `data()` points into. -/
def Tensor.viewBuffer (t : Tensor) : Option Nat := t.view.data.map Pointer.buffer

/-- A tensor that does not borrow. -/
def Tensor.Owning (t : Tensor) : Prop := t.viewBuffer = t.ownedBuffer

theorem releaseOwned_of_none (ht : t.ownedBuffer = none) : DataPtr.releaseOwned h t.owner = h := by
  rw [ownedBuffer] at ht
  rw [DataPtr.releaseOwned]
  cases hall : t.owner.allocated <;> cases hdata : t.owner.data <;> simp_all

theorem releaseOwned_of_some (ht : t.ownedBuffer = some b) :
    ∃ p, p.buffer = b ∧ DataPtr.releaseOwned h t.owner = h.free p := by
  rw [ownedBuffer] at ht
  split at ht
  next hall =>
    obtain ⟨p, hdata, hp⟩ := Option.map_eq_some_iff.mp ht
    refine ⟨p, hp, ?_⟩
    rw [DataPtr.releaseOwned, hall, hdata]
  next => cases ht

theorem releaseOwned_buffers (ht : t.ownedBuffer ≠ some b) :
    (DataPtr.releaseOwned h t.owner).buffers b = h.buffers b := by
  cases hb : t.ownedBuffer with
  | none => rw [releaseOwned_of_none hb]
  | some b' =>
    obtain ⟨p, rfl, hfree⟩ := releaseOwned_of_some hb
    rw [hfree]
    exact free_buffers_of_ne fun heq ↦ ht (heq ▸ hb)

theorem releaseOwned_frees (ht : t.ownedBuffer = some b) (hb : h.frees b = some 0) :
    (DataPtr.releaseOwned h t.owner).frees b = some 1 := by
  obtain ⟨p, rfl, hfree⟩ := releaseOwned_of_some (h := h) ht
  rw [hfree, frees_free hb, update_self]

/-- A buffer of the program stays one. -/
theorem releaseOwned_frees_isSome (hb : (h.frees b).isSome) :
    ((DataPtr.releaseOwned h t.owner).frees b).isSome := by
  by_cases ht : t.ownedBuffer = some b
  · obtain ⟨p, rfl, hfree⟩ := releaseOwned_of_some (h := h) ht
    obtain ⟨n, hn⟩ := Option.isSome_iff_exists.mp hb
    rw [hfree, frees_free hn, update_self]
    rfl
  · rwa [frees_congr (releaseOwned_buffers ht)]

/-! ### Making tensors -/

/-- A new tensor owns a new buffer or none. -/
inductive Made (h : Heap α) (t : Tensor) : Heap α → Prop
  | nothing (ht : t.ownedBuffer = none) (hsize : t.owner.size = 0) : Made h t h
  | allocated {buffer : Buffer α} (origin : Nat) (ht : t.ownedBuffer = some h.next)
      (hview : t.viewBuffer = some h.next) (hfrees : buffer.frees = 0)
      (hext : buffer.external = false)
      (howner : t.owner.data = some { buffer := h.next, origin, offset := 0 })
      (hlength : buffer.length = t.owner.size) : Made h t (h.insert buffer)

theorem made_nothing (ho : t.owner = {}) : Made h t h :=
  .nothing (by rw [ownedBuffer, ho]; rfl) (by rw [ho])

theorem made_allocate {n : Nat} {placement : Placement}
    (ho : t.owner = (DataPtr.allocate h n placement origin fresh).1)
    (hv : t.view = t.owner.view T) :
    Made h t (DataPtr.allocate h n placement origin fresh).2 := by
  unfold DataPtr.allocate at ho ⊢
  split at ho
  next hz =>
    rw [if_pos hz]
    exact .nothing (by rw [ownedBuffer, ho]; rfl) (by rw [ho]; exact hz)
  next hz =>
    rw [if_neg hz]
    refine .allocated origin ?_ ?_ rfl rfl ?_ ?_
    · rw [ownedBuffer, ho]
      rfl
    · rw [viewBuffer, hv, ho]
      rfl
    · rw [ho]
    · rw [ho]

theorem owning_allocate {n : Nat} {placement : Placement}
    (ho : t.owner = (DataPtr.allocate h n placement origin fresh).1)
    (hv : t.view = t.owner.view T) : t.Owning := by
  rw [Tensor.Owning, viewBuffer, ownedBuffer, hv, ho, DataPtr.allocate]
  split <;> rfl

/-- The clone of a window is a new buffer. -/
theorem clone_eq_ok {view : DataView} {made : DataPtr × Heap α}
    (hc : DataPtr.clone h view origin fresh = .ok made) :
    ∃ cells, made = DataPtr.allocate h view.size view.placement origin cells ∧
      ∀ p, view.data = some p → view.size ≠ 0 → h.window p view.size = .ok cells := by
  rw [DataPtr.clone] at hc
  cases hdata : view.data with
  | none =>
    rw [hdata] at hc
    exact ⟨fresh, (Except.ok.inj hc).symm, fun p hp ↦ by cases hp⟩
  | some p =>
    rw [hdata] at hc
    dsimp only at hc
    split at hc
    next hz => exact ⟨fresh, (Except.ok.inj hc).symm, fun _ _ hne ↦ absurd hz hne⟩
    next =>
      obtain ⟨cells, hcells, hc⟩ := bind_eq_ok.mp hc
      refine ⟨cells, (pure_eq_ok.mp hc).symm, fun p' hp _ ↦ ?_⟩
      cases hp
      exact hcells

theorem made_copy {rhs : Tensor} (hm : rhs.copy T h origin fresh = .ok (t, h')) : Made h t h' := by
  obtain ⟨made, hclone, hm⟩ := bind_eq_ok.mp hm
  cases pure_eq_ok.mp hm
  obtain ⟨cells, rfl, -⟩ := clone_eq_ok hclone
  exact made_allocate (T := T) recompute_owner (by simp)

/-- The assigned tensor is a copy; the storage it owned before is released after that. -/
theorem made_copyAssign {t' rhs : Tensor} (hm : t.copyAssign T h origin fresh rhs = .ok (t', h')) :
    ∃ h₁, Made h t' h₁ ∧ t'.Owning ∧ h' = DataPtr.releaseOwned h₁ t.owner := by
  obtain ⟨made, hclone, hm⟩ := bind_eq_ok.mp hm
  cases pure_eq_ok.mp hm
  obtain ⟨cells, rfl, -⟩ := clone_eq_ok hclone
  exact ⟨_, made_allocate (T := T) recompute_owner (by simp),
    owning_allocate (T := T) recompute_owner (by simp), rfl⟩

theorem made_construct {c : Construct α} (hm : c.run T h = .ok (t, h')) : Made h t h' := by
  cases c with
  | empty =>
    cases hm
    exact made_nothing recompute_owner
  | vector n placement origin fresh =>
    cases hm
    exact made_allocate (T := T) recompute_owner (by simp)
  | borrowVector ptr n placement =>
    cases hm
    exact made_nothing recompute_owner
  | matrix rows cols placement origin fresh =>
    cases hm
    exact made_allocate (T := T) recompute_owner (by simp)
  | borrowMatrix ptr rows cols placement =>
    cases hm
    exact made_nothing recompute_owner
  | tensor dims placement origin fresh =>
    obtain ⟨n, -, hm⟩ := bind_eq_ok.mp hm
    obtain ⟨sas, -, hm⟩ := bind_eq_ok.mp hm
    cases pure_eq_ok.mp hm
    exact made_allocate (T := T) recompute_owner (by simp)
  | borrowTensor data dims placement =>
    obtain ⟨t', ht', hm⟩ := bind_eq_ok.mp hm
    cases pure_eq_ok.mp hm
    obtain ⟨n, -, ht'⟩ := bind_eq_ok.mp ht'
    obtain ⟨sas, -, ht'⟩ := bind_eq_ok.mp ht'
    cases pure_eq_ok.mp ht'
    exact made_nothing recompute_owner

/-- A view borrows the storage of its source. -/
structure Borrows (x y : Tensor) : Prop where
  nothing : y.owner = {}
  same : y.viewBuffer = x.viewBuffer

section Views

variable {x y : Tensor} {v : ViewOp} {p : PackOp}

theorem borrows_ofView {size offset : Nat} {sas : SizesAndStrides} {placement : Placement} :
    Borrows x (Tensor.ofView T (x.view.data.map (Pointer.add · offset)) size sas placement) where
  nothing := recompute_owner
  same := by
    rw [viewBuffer, ofView, recompute_view, DataView.borrow, Option.map_map]
    rfl

theorem borrows_withSas {sas : SizesAndStrides} : Borrows x (x.withSas T sas) where
  nothing := recompute_owner
  same := by
    rw [viewBuffer, withSas, ofView, recompute_view]
    rfl

theorem view_borrows (hy : v.run T x = .ok y) : Borrows x y := by
  cases v with
  | t =>
    rw [ViewOp.run, t] at hy
    split at hy
    · cases hy
      exact borrows_withSas
    · cases hy
  | permute order =>
    obtain ⟨_, -, hy⟩ := bind_eq_ok.mp hy
    obtain ⟨sas, -, hy⟩ := bind_eq_ok.mp hy
    cases pure_eq_ok.mp hy
    exact borrows_withSas
  | view dims | reshape dims =>
    obtain ⟨_, -, hy⟩ := bind_eq_ok.mp hy
    obtain ⟨_, -, hy⟩ := bind_eq_ok.mp hy
    obtain ⟨_, -, hy⟩ := bind_eq_ok.mp hy
    obtain ⟨sas, -, hy⟩ := bind_eq_ok.mp hy
    cases pure_eq_ok.mp hy
    exact borrows_withSas
  | slice dim start stop step =>
    obtain ⟨d, first, n, stride, -, -, -, -, -, rfl⟩ := slice_eq_ok hy
    exact borrows_ofView

/-- A packed tensor borrows the storage of its source, or it is a copy. -/
theorem pack_cases (hy : p.run T h origin fresh x = .ok (y, h')) : Borrows x y ∧ h' = h ∨
    Made h y h' ∧ y.Owning := by
  have hcopy : ∀ placement, x.packedCopy T h origin fresh placement = .ok (y, h') →
      Made h y h' ∧ y.Owning := by
    intro placement hy
    obtain ⟨cells, sas, -, -, rfl, rfl⟩ := packedCopy_eq_ok hy
    exact ⟨made_allocate (T := T) (by simp [ofSize]) (by simp [ofSize]),
      owning_allocate (T := T) (by simp [ofSize]; rfl) (by simp [ofSize])⟩
  cases p with
  | clone => exact .inr (hcopy _ hy)
  | contiguous =>
    rw [PackOp.run, contiguousCopy] at hy
    split at hy
    · cases hy
      exact .inl ⟨borrows_withSas, rfl⟩
    · exact .inr (hcopy _ hy)
  | toCpu =>
    rw [PackOp.run, toCpu] at hy
    split at hy
    · cases hy
      exact .inl ⟨borrows_withSas, rfl⟩
    · exact .inr (hcopy _ hy)

end Views

theorem Tensor.write_eq_ok {i : Nat} {a : α} (hw : t.write h i a = .ok h') :
    ∃ p, t.view.data = some p ∧ h.write (p.add (t.logicalOffset i)) a = .ok h' := by
  rw [write] at hw
  cases hdata : t.view.data with
  | none =>
    rw [hdata] at hw
    cases hw
  | some p =>
    rw [hdata] at hw
    exact ⟨p, rfl, hw⟩

/-! ### The invariant -/

namespace TensorState

variable {s s' : TensorState α} {op : TensorOp α} {x y : Nat}

/-- The buffer that the tensor of a name owns. -/
def owned (s : TensorState α) (x : Nat) : Option Nat := (s.tensors x).bind Tensor.ownedBuffer

/-- Each buffer of the program has one owner until it is freed once, and a tensor that owns
storage views it. -/
structure Ownership (s : TensorState α) : Prop where
  bounded : s.heap.Bounded
  unique : UniquelyOwned s.owned s.heap.frees
  viewed : s.All fun t ↦ ∀ b, t.ownedBuffer = some b → t.viewBuffer = some b

theorem owned_set : (s.set x t h).owned = update s.owned x t.ownedBuffer := by
  funext z
  by_cases hz : z = x
  · subst hz
    rw [update_self, owned, set]
    dsimp only
    rw [update_self]
    rfl
  · rw [update_of_ne hz, owned, set]
    dsimp only
    rw [update_of_ne hz]
    rfl

theorem owned_erase : owned { heap := h, tensors := update s.tensors x none } =
    update s.owned x none := by
  funext z
  by_cases hz : z = x
  · subst hz
    rw [update_self, owned]
    dsimp only
    rw [update_self]
    rfl
  · rw [update_of_ne hz, owned]
    dsimp only
    rw [update_of_ne hz]
    rfl

theorem owned_of_none (hx : s.tensors x = none) : s.owned x = none := by
  rw [owned, hx]
  rfl

theorem owned_of_some (hx : s.tensors x = some t) : s.owned x = t.ownedBuffer := by
  rw [owned, hx]
  rfl

theorem Made.bounded (hm : Made h t h') (hb : h.Bounded) : h'.Bounded := by
  cases hm with
  | nothing => exact hb
  | allocated => exact hb.insert

/-- Storage for a holder without any. -/
theorem Made.unique {owner : Nat → Option Nat} (hm : Made h t h') (hb : h.Bounded)
    (hx : owner x = none) (hu : UniquelyOwned owner h.frees) :
    UniquelyOwned (update owner x t.ownedBuffer) h'.frees := by
  cases hm with
  | nothing ht =>
    rw [ht, ← hx, update_eq_self]
    exact hu
  | allocated _ ht _ hfrees hext =>
    rw [ht, frees_insert hext, hfrees]
    exact hu.fresh hx hb.frees_next

theorem Made.viewed (hm : Made h t h') : ∀ b, t.ownedBuffer = some b → t.viewBuffer = some b := by
  intro b hb
  cases hm with
  | nothing ht =>
    rw [ht] at hb
    cases hb
  | allocated _ ht hview =>
    rw [ht] at hb
    rw [hview, hb]

theorem bounded_releaseOwned (hb : h.Bounded) : (DataPtr.releaseOwned h t.owner).Bounded := by
  cases ht : t.ownedBuffer with
  | none => rwa [releaseOwned_of_none ht]
  | some b =>
    obtain ⟨p, -, hfree⟩ := releaseOwned_of_some ht
    exact hfree ▸ hb.free

/-- A holder gives up its storage. -/
theorem unique_releaseOwned {owner : Nat → Option Nat} (hx : owner x = t.ownedBuffer)
    (hu : UniquelyOwned owner h.frees) :
    UniquelyOwned (update owner x none) (DataPtr.releaseOwned h t.owner).frees := by
  cases ht : t.ownedBuffer with
  | none =>
    rw [releaseOwned_of_none ht, ← ht, ← hx, update_eq_self]
    exact hu
  | some b =>
    obtain ⟨p, rfl, hfree⟩ := releaseOwned_of_some ht
    rw [ht] at hx
    rw [hfree, frees_free (hu.allocated x _ hx)]
    exact hu.release hx

theorem Ownership.declare (hs : s.Ownership) (hx : s.tensors x = none) (hm : Made s.heap t h) :
    (s.set x t h).Ownership where
  bounded := Made.bounded hm hs.bounded
  unique := by
    rw [owned_set]
    exact Made.unique hm hs.bounded (owned_of_none hx) hs.unique
  viewed := hs.viewed.set (Made.viewed hm)

/-- The copy is made before the storage of the assigned tensor is released. -/
theorem Ownership.unique_copyAssign {t' : Tensor} (hs : s.Ownership) (hx : s.tensors x = some t)
    (hm : Made s.heap t' h) : UniquelyOwned (update s.owned x t'.ownedBuffer)
      (DataPtr.releaseOwned h t.owner).frees := by
  have howned := owned_of_some hx
  cases ht : t.ownedBuffer with
  | none =>
    rw [releaseOwned_of_none ht]
    exact Made.unique hm hs.bounded (howned.trans ht) hs.unique
  | some b =>
    have hreleased := unique_releaseOwned howned hs.unique
    cases hm with
    | nothing ht' => rwa [ht']
    | @allocated buffer _ ht' _ hfrees hext =>
      obtain ⟨p, rfl, hfree⟩ := releaseOwned_of_some ht
      obtain ⟨p', hp', hfree'⟩ := releaseOwned_of_some ht
      have hb := hs.unique.allocated x _ (howned.trans ht)
      have hne : s.heap.next ≠ p.buffer := fun heq ↦ by
        rw [← heq, hs.bounded.frees_next] at hb
        cases hb
      rw [hfree, frees_free hb] at hreleased
      have hfresh := hreleased.fresh (update_self ..)
        ((update_of_ne hne _ _).trans hs.bounded.frees_next)
      rw [update_idem, update_comm hne.symm] at hfresh
      have hb' : (s.heap.insert buffer).frees p'.buffer = some 0 := by
        rw [frees_insert hext, hp', update_of_ne hne.symm, hb]
      rwa [ht', hfree', frees_free hb', frees_insert hext, hfrees, hp']

/-- An operation keeps every buffer with one owner. -/
theorem run_ownership (hrun : s.run T op = .ok s') (hs : s.Ownership) : s'.Ownership := by
  cases effect_of_run hrun with
  | foreign =>
    refine ⟨hs.bounded.insert, ?_, hs.viewed⟩
    rw [frees_insert_external hs.bounded]
    · exact hs.unique
    · rfl
  | construct hx hmade => exact hs.declare hx (made_construct hmade)
  | copy hx _ hmade => exact hs.declare hx (made_copy hmade)
  | view hx _ hmade => exact hs.declare hx (made_nothing (view_borrows hmade).nothing)
  | pack hx _ hmade =>
    rcases pack_cases hmade with ⟨hborrows, rfl⟩ | ⟨hm, -⟩
    · exact hs.declare hx (made_nothing hborrows.nothing)
    · exact hs.declare hx hm
  | copyAssignSelf | moveAssignSelf => exact hs
  | @move x y rhs hx hy =>
    refine ⟨hs.bounded, ?_, (hs.viewed.set (hs.viewed y rhs hy)).set fun b hb ↦ by cases hb⟩
    rw [owned_set, owned_set, ← owned_of_some hy]
    exact hs.unique.transfer (owned_of_none hx)
  | @copyAssign x y origin fresh t rhs t' h hx hy hne hmade =>
    obtain ⟨h₁, hm, -, rfl⟩ := made_copyAssign hmade
    refine ⟨bounded_releaseOwned (Made.bounded hm hs.bounded), ?_, hs.viewed.set (Made.viewed hm)⟩
    rw [owned_set]
    exact hs.unique_copyAssign hx hm
  | @moveAssign x y t rhs hx hy hne =>
    refine ⟨bounded_releaseOwned hs.bounded, ?_,
      (hs.viewed.set (hs.viewed y rhs hy)).set fun b hb ↦ by cases hb⟩
    have hreleased := unique_releaseOwned (owned_of_some hx) hs.unique
    have hmoved := hreleased.transfer (j := y) (update_self ..)
    rw [update_of_ne hne.symm, update_idem, owned_of_some hy] at hmoved
    rw [owned_set, owned_set]
    exact hmoved
  | write hx hmade =>
    obtain ⟨p, -, hw⟩ := write_eq_ok hmade
    refine ⟨hs.bounded.write hw, ?_, hs.viewed⟩
    rw [frees_write hw]
    exact hs.unique
  | destroy hx =>
    refine ⟨bounded_releaseOwned hs.bounded, ?_, hs.viewed.erase⟩
    rw [owned_erase]
    exact unique_releaseOwned (owned_of_some hx) hs.unique

theorem reachable_ownership (hs : (tensorPrograms α T).Reachable s) : s.Ownership := by
  refine hs.invariant (I := Ownership) ?_ fun s op s' hs hstep ↦ run_ownership hstep hs
  rintro s rfl
  exact ⟨fun _ _ ↦ rfl, .nothing (fun _ ↦ rfl) fun _ ↦ rfl, fun _ _ ht ↦ by cases ht⟩

end TensorState

end Hisab.Vectorization
