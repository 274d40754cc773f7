import Hisab.Vectorization.Ownership

/-!
# Assigning a view to its source

What an assignment frees, and when `a = v` keeps the storage of a temporary `v` that a chain of
calls has made from `a`.
-/

namespace Hisab.Vectorization

open Hisab.Base Function List Option

variable {α : Type} {T : SimdTarget} {h h' : Heap α} {t v : Tensor} {b : Nat}

namespace Tensor

/-- The storage is still allocated, and the elements are those that `v` had before. -/
def Kept (h h' : Heap α) (v : Tensor) : Prop :=
  (v.numel ≠ 0 → ∃ b buffer, v.viewBuffer = some b ∧ h'.live b = some buffer) ∧
    ∀ i < v.numel, v.elementAt h' i = v.elementAt h i

theorem elementAt_congr (hb : v.viewBuffer = some b) (hlive : h'.live b = h.live b) (i : Nat) :
    v.elementAt h' i = v.elementAt h i := by
  obtain ⟨p, hp, rfl⟩ := map_eq_some_iff.mp hb
  rw [elementAt, elementAt, readAt, readAt, hp]
  dsimp only
  rw [Heap.read, Heap.read, Pointer.add_buffer, hlive]

end Tensor

namespace TensorState

variable {s s' s₁ : TensorState α} {x y z a : Nat} {names zs : List Nat}

theorem set_tensors_self : (s.set x t h).tensors x = some t := update_self ..

theorem set_tensors_of_ne (hne : z ≠ x) : (s.set x t h).tensors z = s.tensors z :=
  update_of_ne hne _ _

/-! ### Single assignments -/

/-- A step frees a buffer. -/
def Frees (s s' : TensorState α) (b : Nat) : Prop :=
  ((s.heap.frees b).getD 0) < (s'.heap.frees b).getD 0

theorem not_frees_of_owned (hs' : s'.Ownership) (hx : s'.owned x = some b) : ¬ s.Frees s' b := by
  rw [Frees, hs'.unique.allocated x b hx]
  exact Nat.not_lt_zero _

/-- A copy assignment does not free what its target points into afterwards. -/
theorem copyAssign_not_frees {origin : Nat} {fresh : Nat → α} (hs : s.Ownership)
    (hrun : s.run T (.copyAssign x y origin fresh) = .ok s') (hx : s'.tensors x = some t)
    (hb : t.viewBuffer = some b) : ¬ s.Frees s' b := by
  have hs' := run_ownership hrun hs
  cases effect_of_run hrun with
  | copyAssignSelf => exact Nat.lt_irrefl _
  | @copyAssign _ _ _ _ t₀ rhs t' h hx₀ hy hne hmade =>
    obtain rfl : t' = t := some.inj (set_tensors_self.symm.trans hx)
    obtain ⟨h₁, -, howning, -⟩ := made_copyAssign hmade
    exact not_frees_of_owned hs' ((owned_of_some hx).trans (howning.symm.trans hb))

/-- A move assignment frees what its target owned before. -/
theorem moveAssign_frees_iff (hs : s.Ownership) (hrun : s.run T (.moveAssign x y) = .ok s') :
    s.Frees s' b ↔ x ≠ y ∧ s.owned x = some b := by
  cases effect_of_run hrun with
  | moveAssignSelf => exact iff_of_false (Nat.lt_irrefl _) fun h ↦ h.1 rfl
  | @moveAssign _ _ t₀ rhs hx₀ hy hne =>
    rw [owned_of_some hx₀]
    by_cases hown : t₀.ownedBuffer = some b
    · refine iff_of_true ?_ ⟨hne, hown⟩
      have hzero := hs.unique.allocated x b ((owned_of_some hx₀).trans hown)
      change ((s.heap.frees b).getD 0) < ((DataPtr.releaseOwned s.heap t₀.owner).frees b).getD 0
      rw [releaseOwned_frees hown hzero, hzero]
      exact Nat.one_pos
    · refine iff_of_false ?_ fun h ↦ hown h.2
      change ¬ ((s.heap.frees b).getD 0) < ((DataPtr.releaseOwned s.heap t₀.owner).frees b).getD 0
      rw [Heap.frees_congr (releaseOwned_buffers hown)]
      exact Nat.lt_irrefl _

/-! ### Chains of calls -/

/-- A call that returns a temporary. -/
inductive TempCall (α : Type)
  | view (v : ViewOp)
  | pack (p : PackOp) (origin : Nat) (fresh : Nat → α)

/-- The operation that gives the result of a call on `y` the name `x`. -/
def TempCall.op (x y : Nat) : TempCall α → TensorOp α
  | .view v => .view x y v
  | .pack p origin fresh => .pack x y p origin fresh

/-- The calls of a chain on `y`, with the names of their temporaries. -/
def chainOps : Nat → List (Nat × TempCall α) → List (TensorOp α)
  | _, [] => []
  | y, (x, call) :: chain => call.op x y :: chainOps x chain

/-- The last temporary of a chain on `y`. -/
def lastTemp : Nat → List (Nat × TempCall α) → Nat
  | y, [] => y
  | _, (x, _) :: chain => lastTemp x chain

/-- What `a = v` does with the last temporary `v` of a chain: the assignment, and the end of
the statement. -/
def assignOps (a : Nat) (chain : List (Nat × TempCall α)) : List (TensorOp α) :=
  .moveAssign a (lastTemp a chain) :: (chain.map Prod.fst).reverse.map .destroy

/-- The tensor of a name points into storage that one of these owns, if into any. -/
def HeldBy (s : TensorState α) (zs : List Nat) (y : Nat) : Prop :=
  ∃ t, s.tensors y = some t ∧ (t.viewBuffer = none ∨ ∃ z ∈ zs, s.owned z = t.viewBuffer)

theorem owned_set_of_ne (hne : z ≠ x) : (s.set x t h).owned z = s.owned z := by
  rw [owned_set, update_of_ne hne]

/-- A call declares its temporary, whose storage is its own or that of its source. -/
theorem tempCall_spec {call : TempCall α} (hrun : s.run T (call.op x y) = .ok s') :
    s.tensors x = none ∧ ∃ rhs t, s.tensors y = some rhs ∧ s'.tensors x = some t ∧
      (∀ z, z ≠ x → s'.tensors z = s.tensors z) ∧ (Borrows rhs t ∨ t.Owning) := by
  cases call with
  | view v =>
    cases effect_of_run hrun with
    | view hx hy hmade =>
      exact ⟨hx, _, _, hy, set_tensors_self, fun z hz ↦ set_tensors_of_ne hz,
        .inl (view_borrows hmade)⟩
  | pack p origin fresh =>
    cases effect_of_run hrun with
    | pack hx hy hmade =>
      refine ⟨hx, _, _, hy, set_tensors_self, fun z hz ↦ set_tensors_of_ne hz, ?_⟩
      exact (pack_cases hmade).imp And.left And.right

theorem owned_congr (hz : s'.tensors z = s.tensors z) : s'.owned z = s.owned z := by
  rw [owned, owned, hz]

variable {chain : List (Nat × TempCall α)}

/-- The temporaries of a chain are new, and the last one points into storage of one of them or
of the source. -/
theorem chain_spec (hzs : ∀ z ∈ zs, s.tensors z ≠ none) (hy : s.HeldBy zs y)
    (hrun : (chainOps y chain).foldlM (run T) s = .ok s₁) :
    s₁.HeldBy (chain.map Prod.fst ++ zs) (lastTemp y chain) ∧ (chain.map Prod.fst).Nodup ∧
      (∀ z ∈ chain.map Prod.fst, s.tensors z = none ∧ s₁.tensors z ≠ none) ∧
        ∀ z, z ∉ chain.map Prod.fst → s₁.tensors z = s.tensors z := by
  induction chain generalizing s y zs with
  | nil =>
    cases pure_eq_ok.mp hrun
    exact ⟨hy, nodup_nil, fun z hz ↦ absurd hz (not_mem_nil), fun _ _ ↦ rfl⟩
  | cons c chain ih =>
    obtain ⟨x, call⟩ := c
    rw [chainOps, foldlM_cons, bind_eq_ok] at hrun
    obtain ⟨s', hcall, hrun⟩ := hrun
    obtain ⟨hx, rhs, t, hrhs, ht, hframe, hstorage⟩ := tempCall_spec hcall
    have hmem : ∀ z ∈ zs, z ≠ x := fun z hz heq ↦ hzs z hz (heq ▸ hx)
    have hheld : s'.HeldBy (x :: zs) x := by
      refine ⟨t, ht, ?_⟩
      rcases hstorage with ⟨-, hsame⟩ | howning
      · obtain ⟨rhs', hrhs', hheld⟩ := hy
        obtain rfl : rhs = rhs' := some.inj (hrhs.symm.trans hrhs')
        rw [hsame]
        refine hheld.imp_right fun ⟨z, hz, howned⟩ ↦ ⟨z, mem_cons_of_mem _ hz, ?_⟩
        rw [owned_congr (hframe z (hmem z hz)), howned]
      · exact .inr ⟨x, mem_cons_self .., (owned_of_some ht).trans howning.symm⟩
    have hscope : ∀ z ∈ x :: zs, s'.tensors z ≠ none := by
      intro z hz
      rcases mem_cons.mp hz with rfl | hz
      · rw [ht]
        exact some_ne_none _
      · rw [hframe z (hmem z hz)]
        exact hzs z hz
    obtain ⟨hlast, hnodup, hnew, hkept⟩ := ih hscope hheld hrun
    have hxnew : x ∉ chain.map Prod.fst := fun hmem ↦ hscope x (mem_cons_self ..) (hnew x hmem).1
    refine ⟨?_, nodup_cons.mpr ⟨hxnew, hnodup⟩, ?_, ?_⟩
    · obtain ⟨v, hv, hv'⟩ := hlast
      refine ⟨v, hv, hv'.imp_right fun ⟨z, hz, howned⟩ ↦ ⟨z, ?_, howned⟩⟩
      simp only [map_cons, mem_append, mem_cons] at hz ⊢
      tauto
    · intro z hz
      rcases mem_cons.mp hz with rfl | hz
      · refine ⟨hx, ?_⟩
        rw [hkept z hxnew, ht]
        exact some_ne_none _
      · have hne : z ≠ x := fun heq ↦ hxnew (heq ▸ hz)
        rw [← hframe z hne]
        exact hnew z hz
    · intro z hz
      obtain ⟨hne, hz⟩ := not_or.mp (mt mem_cons.mpr hz)
      rw [hkept z hz, hframe z hne]

/-- At the end of a statement its temporaries are gone, and the storage that is not theirs is
kept. -/
theorem destroyAll_spec (names : List Nat) (hnodup : names.Nodup)
    (hscope : ∀ z ∈ names, s.tensors z ≠ none) :
    ∃ s', (names.map TensorOp.destroy).foldlM (run T) s = .ok s' ∧
      (∀ z, s'.tensors z = if z ∈ names then none else s.tensors z) ∧
      (∀ b, (∀ z ∈ names, s.owned z ≠ some b) → s'.heap.buffers b = s.heap.buffers b) ∧
      (∀ b, (s.heap.frees b).isSome → (s'.heap.frees b).isSome) ∧
      (s.Ownership → s'.Ownership) := by
  induction names generalizing s with
  | nil => exact ⟨s, rfl, fun z ↦ by simp, fun _ _ ↦ rfl, fun _ h ↦ h, id⟩
  | cons x names ih =>
    obtain ⟨hx, hnodup⟩ := nodup_cons.mp hnodup
    obtain ⟨t, ht⟩ := ne_none_iff_exists'.mp (hscope x (mem_cons_self ..))
    let s₁ : TensorState α :=
      { heap := DataPtr.releaseOwned s.heap t.owner, tensors := update s.tensors x none }
    have hstep : s.run T (.destroy x) = .ok s₁ := bind_eq_ok.mpr ⟨t, get_eq_ok.mpr ht, rfl⟩
    have hframe : ∀ z ∈ names, s₁.tensors z = s.tensors z := by
      intro z hz
      have hne : z ≠ x := fun heq ↦ hx (heq ▸ hz)
      exact update_of_ne hne _ _
    obtain ⟨s', hrun, htensors, hbuffers, hfrees, hown⟩ := ih hnodup fun z hz ↦ by
      rw [hframe z hz]
      exact hscope z (mem_cons_of_mem _ hz)
    refine ⟨s', ?_, fun z ↦ ?_, fun b hb ↦ ?_, fun b hb ↦ ?_, fun hs ↦ hown (run_ownership hstep hs)⟩
    · exact bind_eq_ok.mpr ⟨s₁, hstep, hrun⟩
    · rw [htensors z]
      by_cases hz : z ∈ names
      · rw [if_pos hz, if_pos (mem_cons_of_mem _ hz)]
      · by_cases hzx : z = x
        · subst hzx
          rw [if_neg hz, if_pos (mem_cons_self ..)]
          exact update_self ..
        · rw [if_neg hz, if_neg (by simp [hz, hzx])]
          exact update_of_ne hzx _ _
    · have hxb : t.ownedBuffer ≠ some b := owned_of_some ht ▸ hb x (mem_cons_self ..)
      rw [hbuffers b fun z hz ↦ ?_]
      · exact releaseOwned_buffers hxb
      · rw [owned_congr (hframe z hz)]
        exact hb z (mem_cons_of_mem _ hz)
    · exact hfrees b (releaseOwned_frees_isSome hb)

theorem lastTemp_mem (hne : chain ≠ []) (y : Nat) : lastTemp y chain ∈ chain.map Prod.fst := by
  induction chain generalizing y with
  | nil => exact absurd rfl hne
  | cons c chain ih =>
    obtain ⟨x, call⟩ := c
    by_cases hchain : chain = []
    · subst hchain
      exact mem_cons_self ..
    · exact mem_cons_of_mem _ (ih hchain x)

/-- The storage of what was assigned survives the statement exactly if the temporary owned it. -/
theorem kept_iff (hs₁ : s₁.Ownership) (hs' : s'.Ownership) {x : Nat} (hx : s₁.tensors x = some v)
    (hheld : v.viewBuffer = none ∨ ∃ z ∈ names ++ [a], s₁.owned z = v.viewBuffer)
    (hbuffers : ∀ b, v.ownedBuffer = some b → s'.heap.buffers b = s₁.heap.buffers b)
    (hfrees : ∀ b, (s₁.heap.frees b).isSome → (s'.heap.frees b).isSome)
    (howned : ∀ z, s'.owned z = if z = a then v.ownedBuffer else if z ∈ names then none else s₁.owned z) :
    v.Kept s₁.heap s'.heap ↔ v.ownedBuffer.isSome ∨ v.numel = 0 := by
  constructor
  · rintro ⟨hlive, -⟩
    refine or_iff_not_imp_right.mpr fun hnumel ↦ ?_
    by_contra hborrowed
    rw [Bool.not_eq_true, isSome_eq_false_iff, isNone_iff_eq_none] at hborrowed
    obtain ⟨b, buffer, hb, hbuffer⟩ := hlive hnumel
    obtain ⟨z, hz, hzb⟩ := hheld.resolve_left (by rw [hb]; exact some_ne_none b)
    rw [hb] at hzb
    -- the buffer belonged to the source or to a temporary, and now to nobody
    have hnone : ∀ z', s'.owned z' ≠ some b := by
      intro z' hz'
      rw [howned z'] at hz'
      split at hz'
      next =>
        rw [hborrowed] at hz'
        cases hz'
      next hza =>
        split at hz'
        next => cases hz'
        next hnames =>
          obtain rfl := hs₁.unique.injective z' z b hz' hzb
          rcases mem_append.mp hz with hmem | hmem
          · exact hnames hmem
          · exact hza (mem_singleton.mp hmem)
    obtain ⟨n, hn⟩ := isSome_iff_exists.mp (hfrees b (by rw [hs₁.unique.allocated z b hzb]; rfl))
    rw [hs'.unique.eq_one hn hnone] at hn
    rw [Heap.live_eq_none_of_frees hn] at hbuffer
    cases hbuffer
  · rintro (howner | hz)
    · obtain ⟨b, hb⟩ := isSome_iff_exists.mp howner
      have hview := hs₁.viewed x v hx b hb
      have hlive := Heap.live_congr (hbuffers b hb)
      obtain ⟨buffer, hbuffer⟩ :=
        Heap.live_of_frees (hs₁.unique.allocated x b ((owned_of_some hx).trans hb))
      exact ⟨fun _ ↦ ⟨b, buffer, hview, hlive.trans hbuffer⟩,
        fun i _ ↦ Tensor.elementAt_congr hview hlive i⟩
    · exact ⟨fun hne ↦ absurd hz hne, fun i hi ↦ by omega⟩

/-- The statement `a = v` for a temporary made from `a` goes through, and `a` keeps what it was
assigned exactly if `v` owned its storage or had no elements. -/
theorem selfAssign_spec {ta : Tensor} (hs : s.Ownership) (ha : s.tensors a = some ta)
    (howning : ta.Owning) (hne : chain ≠ []) (hchain : (chainOps a chain).foldlM (run T) s = .ok s₁)
    : ∃ v s', s₁.tensors (lastTemp a chain) = some v ∧
      (assignOps a chain).foldlM (run T) s₁ = .ok s' ∧ s'.tensors a = some v ∧
        (v.Kept s₁.heap s'.heap ↔ v.ownedBuffer.isSome ∨ v.numel = 0) := by
  have hs₁ : s₁.Ownership :=
    foldlM_invariant (fun s op s' hs hrun ↦ run_ownership hrun hs) hchain hs
  have hscope : ∀ z ∈ [a], s.tensors z ≠ none := fun z hz ↦ by
    rw [mem_singleton.mp hz, ha]
    exact some_ne_none _
  obtain ⟨⟨v, hv, hheld⟩, hnodup, hnew, hkept⟩ := chain_spec hscope
    ⟨ta, ha, .inr ⟨a, mem_singleton_self a, (owned_of_some ha).trans howning.symm⟩⟩ hchain
  have hx := lastTemp_mem hne a
  have hanew : a ∉ chain.map Prod.fst := fun hmem ↦ by
    rw [(hnew a hmem).1] at ha
    cases ha
  have hnames : ∀ z ∈ chain.map Prod.fst, z ≠ a := fun z hz heq ↦ hanew (heq ▸ hz)
  have hxa : lastTemp a chain ≠ a := hnames _ hx
  have ha₁ : s₁.tensors a = some ta := (hkept a hanew).trans ha
  let released := DataPtr.releaseOwned s₁.heap ta.owner
  let s₂ := (s₁.set a v released).set (lastTemp a chain) .movedFrom released
  have hassign : s₁.run T (.moveAssign a (lastTemp a chain)) = .ok s₂ := by
    refine bind_eq_ok.mpr ⟨ta, get_eq_ok.mpr ha₁, bind_eq_ok.mpr ⟨v, get_eq_ok.mpr hv, ?_⟩⟩
    rw [if_neg hxa.symm]
    rfl
  obtain ⟨s', hdestroy, htensors, hbuffers, hfrees, hown⟩ := destroyAll_spec (s := s₂)
    (chain.map Prod.fst).reverse (nodup_reverse.mpr hnodup) fun z hz ↦ by
      have hz := mem_reverse.mp hz
      by_cases hzx : z = lastTemp a chain
      · rw [hzx, set_tensors_self]
        exact some_ne_none _
      · rw [set_tensors_of_ne hzx, set_tensors_of_ne (hnames z hz)]
        exact (hnew z hz).2
  have hs₂ : s₂.Ownership := run_ownership hassign hs₁
  have ha' : s'.tensors a = some v := by
    rw [htensors a, if_neg (mt mem_reverse.mp hanew), set_tensors_of_ne hxa.symm, set_tensors_self]
  refine ⟨v, s', hv, bind_eq_ok.mpr ⟨s₂, hassign, hdestroy⟩, ha', ?_⟩
  refine kept_iff hs₁ (hown hs₂) hv hheld ?_ ?_ ?_
  · intro b hb
    have hvb : s₁.owned (lastTemp a chain) = some b := (owned_of_some hv).trans hb
    rw [hbuffers b fun z hz hzb ↦ ?_]
    · refine releaseOwned_buffers fun hab ↦ hxa ?_
      exact hs₁.unique.injective _ _ b hvb ((owned_of_some ha₁).trans hab)
    · have hz := mem_reverse.mp hz
      by_cases hzx : z = lastTemp a chain
      · rw [hzx, owned_set, update_self] at hzb
        cases hzb
      · rw [owned_set_of_ne hzx, owned_set_of_ne (hnames z hz)] at hzb
        exact hzx (hs₁.unique.injective _ _ b hzb hvb)
  · exact fun b hb ↦ hfrees b (releaseOwned_frees_isSome hb)
  · intro z
    by_cases hza : z = a
    · rw [hza, if_pos rfl, owned_of_some ha']
    · rw [if_neg hza, owned, htensors z]
      by_cases hz : z ∈ chain.map Prod.fst
      · rw [if_pos hz, if_pos (mem_reverse.mpr hz)]
        rfl
      · have hzx : z ≠ lastTemp a chain := fun heq ↦ hz (heq ▸ hx)
        rw [if_neg hz, if_neg (mt mem_reverse.mp hz), set_tensors_of_ne hzx, set_tensors_of_ne hza,
          owned]

/-- In every state of a program each allocated buffer has one owner, or it was freed once. A copy
assignment does not free what its target points into afterwards; a move assignment does exactly
if the target owned it; and `a = v` keeps what it assigns exactly if the temporary `v` owned its
storage or had no elements. -/
theorem reachable_assignments (hs : (tensorPrograms α T).Reachable s) :
    (∀ b n, s.heap.frees b = some n →
      n = 0 ∧ (∃! x, s.owned x = some b) ∨ n = 1 ∧ ∀ x, s.owned x ≠ some b) ∧
    (∀ x y origin fresh s' t b, s.run T (.copyAssign x y origin fresh) = .ok s' →
      s'.tensors x = some t → t.viewBuffer = some b → ¬ s.Frees s' b) ∧
    (∀ x y s' t b, s.run T (.moveAssign x y) = .ok s' → s'.tensors x = some t →
      t.viewBuffer = some b → (¬ s.Frees s' b ↔ x = y ∨ s.owned x ≠ some b)) ∧
    ∀ a ta chain s₁, s.tensors a = some ta → ta.Owning → chain ≠ [] →
      (chainOps a chain).foldlM (run T) s = .ok s₁ →
      ∃ v s', s₁.tensors (lastTemp a chain) = some v ∧
        (assignOps a chain).foldlM (run T) s₁ = .ok s' ∧ s'.tensors a = some v ∧
          (v.Kept s₁.heap s'.heap ↔ v.ownedBuffer.isSome ∨ v.numel = 0) := by
  have hown := reachable_ownership hs
  refine ⟨fun b n hn ↦ ?_, ?_, ?_, ?_⟩
  · refine (hown.unique.freed b n hn).imp_left fun ⟨hz, x, hx⟩ ↦ ⟨hz, x, hx, fun y hy ↦ ?_⟩
    exact hown.unique.injective y x b hy hx
  · exact fun x y origin fresh s' t b hrun hx hb ↦ copyAssign_not_frees hown hrun hx hb
  · intro x y s' t b hrun _ _
    rw [moveAssign_frees_iff hown hrun, not_and_or, not_not]
  · exact fun a ta chain s₁ ha howning hne hchain ↦ selfAssign_spec hown ha howning hne hchain

/-- `a = a.t().contiguous()` for a `2 × 3` matrix `a`. -/
theorem packed_transpose_kept : ∃ (s₁ s' : TensorState Nat) (v : Tensor),
    s₁.tensors 2 = some v ∧ v.numel = 6 ∧ s'.tensors 0 = some v ∧ v.Kept s₁.heap s'.heap := by
  have hs := reachable_of_foldlM (T := scalarTarget)
    ([.construct 0 (.matrix 2 3 {} 0 fun i ↦ i)] : List (TensorOp Nat)) rfl fun _ _ ↦ trivial
  obtain ⟨v, s', hv, -, ha, hkept⟩ := (reachable_assignments hs.of_restrict).2.2.2 0 _
    [(1, .view .t), (2, .pack .contiguous 0 fun i ↦ i)] _ rfl rfl nofun rfl
  cases hv
  exact ⟨_, s', _, rfl, rfl, ha, hkept.mpr (.inl rfl)⟩

/-- `a = a.t()` for a `2 × 3` matrix `a`, which then reads released storage. -/
theorem transpose_assigned_dangles : ∃ (s s' : TensorState Nat) (v : Tensor),
    (tensorPrograms Nat scalarTarget).Reachable s ∧ s.tensors 1 = some v ∧
      v.elementAt s.heap 0 = .ok 0 ∧
      [TensorOp.moveAssign 0 1, .destroy 1].foldlM (run scalarTarget) s = .ok s' ∧
      s'.tensors 0 = some v ∧ v.numel = 6 ∧ v.elementAt s'.heap 0 = .error .undefined := by
  refine ⟨_, _, _, (reachable_of_foldlM
    [.construct 0 (.matrix 2 3 {} 0 fun i ↦ i), .view 1 0 .t] rfl fun _ _ ↦ trivial).of_restrict,
    rfl, rfl, rfl, rfl, rfl, rfl⟩

end TensorState

end Hisab.Vectorization
