import Hisab.Base.ForestLayout
import Hisab.Profiler.TreeReplay

/-!
# Adjusted times

`adjust_timestamps` widens the events of each tree and lays them out within their parents, one tree
after the other.
-/

namespace Hisab.Profiler.Collection

open Base Function List Result Option

variable {n k : Nat} {results results' : Results} {x : Nat} {forest : Forest Nat} {t acc : Int}

/-- A result with an end, at or after its start. -/
structure Ends (r : Result) : Prop where
  le : r.startTimeNs ≤ r.end_
  real : minTime < r.end_

theorem Ends.endTimeNs (h : Ends (results x)) : endTimeNs results n x = (results x).end_ :=
  endTimeNs_eq h.le h.real

def durationOf (results : Results) (x : Nat) : Int := endOf results x - startOf results x

theorem endOf_eq (results : Results) :
    endOf results = fun x ↦ startOf results x + durationOf results x := by
  funext x
  rw [durationOf]
  omega

/-- A result with another start and duration. -/
def Result.moveTo (r : Result) (startTime duration : Int) : Result :=
  { r with
    startTimeNs := startTime
    extraFields := match r.extraFields with
      | .functionOp _ f => .functionOp (startTime + duration) f
      | .allocation => .allocation }

/-- An allocation has no children. -/
def Childless (r : Result) : Prop := r.extraFields = .allocation → r.children = []

namespace Result

variable (r : Result)

theorem moveTo_self : r.moveTo r.startTimeNs (r.end_ - r.startTimeNs) = r := by
  cases r with
  | mk startTime tid extraFields parent children finished =>
    cases extraFields with
    | functionOp e f => simp [moveTo, end_]
    | allocation => rfl

theorem moveTo_moveTo (s d s' d' : Int) : (r.moveTo s d).moveTo s' d' = r.moveTo s' d' := by
  cases r with
  | mk startTime tid extraFields parent children finished => cases extraFields <;> rfl

theorem moveTo_end (h : r.extraFields ≠ .allocation) (s d : Int) : (r.moveTo s d).end_ = s + d := by
  cases r with
  | mk startTime tid extraFields parent children finished =>
    cases extraFields with
    | functionOp e f => rfl
    | allocation => exact absurd rfl h

theorem moveTo_end_allocation (h : r.extraFields = .allocation) (s d : Int) :
    (r.moveTo s d).end_ = s := by
  cases r with
  | mk startTime tid extraFields parent children finished =>
    cases h
    rfl

theorem end_allocation (h : r.extraFields = .allocation) : r.end_ = r.startTimeNs := by rw [end_, h]

theorem moveTo_allocation_iff (s d : Int) :
    (r.moveTo s d).extraFields = .allocation ↔ r.extraFields = .allocation := by
  cases r with
  | mk startTime tid extraFields parent children finished => cases extraFields <;> simp [moveTo]

end Result

/-- Results of which some have moved. -/
structure Moved (nodes : List Nat) (results results' : Results) : Prop where
  rest : ∀ x ∉ nodes, results' x = results x
  moved : ∀ x, ∃ startTime duration, results' x = (results x).moveTo startTime duration

namespace Moved

variable {nodes nodes' : List Nat}

theorem refl (nodes : List Nat) (results : Results) : Moved nodes results results where
  rest _ _ := rfl
  moved _ := ⟨_, _, (moveTo_self _).symm⟩

theorem trans {results'' : Results} (h : Moved nodes results results')
    (h' : Moved nodes' results' results'') : Moved (nodes ++ nodes') results results'' := by
  constructor
  · intro x hx
    rw [h'.rest x fun hmem ↦ hx (mem_append_right _ hmem),
      h.rest x fun hmem ↦ hx (mem_append_left _ hmem)]
  · intro x
    obtain ⟨s, d, heq⟩ := h.moved x
    obtain ⟨s', d', heq'⟩ := h'.moved x
    exact ⟨s', d', by rw [heq', heq, moveTo_moveTo]⟩

theorem mono (h : Moved nodes results results') (hsub : nodes ⊆ nodes') :
    Moved nodes' results results' :=
  ⟨fun x hx ↦ h.rest x fun hmem ↦ hx (hsub hmem), h.moved⟩

theorem update (results : Results) (x : Nat) (s d : Int) :
    Moved [x] results (update results x ((results x).moveTo s d)) := by
  constructor
  · intro y hy
    exact update_of_ne (by simpa using hy) ..
  · intro y
    by_cases hy : y = x
    · subst hy
      exact ⟨s, d, update_self ..⟩
    · rw [update_of_ne hy]
      exact (refl [] results).moved y

theorem parent (h : Moved nodes results results') (x : Nat) :
    (results' x).parent = (results x).parent := by
  obtain ⟨s, d, heq⟩ := h.moved x
  rw [heq]
  rfl

theorem children (h : Moved nodes results results') (x : Nat) :
    (results' x).children = (results x).children := by
  obtain ⟨s, d, heq⟩ := h.moved x
  rw [heq]
  rfl

theorem startTid (h : Moved nodes results results') (x : Nat) :
    (results' x).startTid = (results x).startTid := by
  obtain ⟨s, d, heq⟩ := h.moved x
  rw [heq]
  rfl

theorem allocation_iff (h : Moved nodes results results') (x : Nat) :
    (results' x).extraFields = .allocation ↔ (results x).extraFields = .allocation := by
  obtain ⟨s, d, heq⟩ := h.moved x
  rw [heq, moveTo_allocation_iff]

theorem functionOp {e : Int} {f : Nat} (h : Moved nodes results results')
    (he : (results' x).extraFields = .functionOp e f) :
    ∃ e', (results x).extraFields = .functionOp e' f := by
  obtain ⟨s, d, heq⟩ := h.moved x
  rw [heq, moveTo] at he
  cases hx : (results x).extraFields with
  | functionOp e' f' =>
    simp only [hx] at he
    exact ⟨e', by rw [(ExtraFields.functionOp.inj he).2]⟩
  | allocation => simp [hx] at he

theorem startOf_eq (h : Moved nodes results results') (hx : x ∉ nodes) :
    startOf results' x = startOf results x := by
  rw [startOf, startOf, h.rest x hx]

theorem durationOf_eq (h : Moved nodes results results') (hx : x ∉ nodes) :
    durationOf results' x = durationOf results x := by
  rw [durationOf, durationOf, endOf, endOf, startOf, startOf, h.rest x hx]

end Moved

/-! ### Durations -/

/-- The end of an event whose children are widened. -/
theorem adjustDurationsDfs_succ {total : Int} (hends : Ends (results x))
    (hfold : (results x).children.foldlM (fun state child ↦ do
        let (results, duration) ← adjustDurationsDfs n k state.1 child
        return (results, state.2 + duration)) (results, 0) = some (results', total))
    (hsame : results' x = results x)
    (halloc : (results x).extraFields = .allocation → total = 0) :
    ∃ results'', adjustDurationsDfs n (k + 1) results x = some (results'', durationOf results'' x) ∧
      Moved [x] results' results'' ∧ startOf results'' x = startOf results x ∧
        durationOf results'' x = max (durationOf results x) total := by
  have hduration : durationOf results x = (results x).end_ - (results x).startTimeNs := rfl
  rw [adjustDurationsDfs, hfold, hends.endTimeNs, ← hduration]
  simp only [bind_eq_bind, bind_some]
  by_cases hgt : total > durationOf results x
  · rw [if_pos hgt, setEnd, hsame]
    cases he : (results x).extraFields with
    | allocation =>
      have hzero := halloc he
      have hend := end_allocation _ he
      omega
    | functionOp e f =>
      have hmove : update results' x { results x with
          extraFields := .functionOp ((results x).startTimeNs + total) f } =
            update results' x ((results' x).moveTo (results x).startTimeNs total) := by
        rw [hsame, moveTo, he]
      have hself := update_self x ((results' x).moveTo (results x).startTimeNs total) results'
      have hstart : startOf (update results' x
          ((results' x).moveTo (results x).startTimeNs total)) x = startOf results x := by
        rw [startOf, hself]
        rfl
      have hdur : durationOf (update results' x
          ((results' x).moveTo (results x).startTimeNs total)) x = total := by
        have hend := moveTo_end (results' x) (by rw [hsame, he]; simp) (results x).startTimeNs total
        rw [durationOf, hstart, endOf, hself, startOf]
        omega
      simp only [hmove]
      refine ⟨_, ?_, Moved.update .., hstart, ?_⟩
      · rw [hdur]
        rfl
      · omega
  · rw [if_neg hgt]
    have hdur : durationOf results' x = durationOf results x := by
      rw [durationOf, durationOf, endOf, endOf, startOf, startOf, hsame]
    refine ⟨results', ?_, Moved.refl .., ?_, ?_⟩
    · rw [hdur]
      rfl
    · rw [startOf, startOf, hsame]
    · omega

/-- A forest of events whose children are the ones in the results. -/
structure Grown (results : Results) (forest : Forest Nat) : Prop where
  children : forest.All fun a l ↦ (results a).children = l
  nodup : forest.nodes.Nodup
  ends : ∀ x ∈ forest.nodes, Ends (results x)
  childless : ∀ x ∈ forest.nodes, Childless (results x)

namespace Grown

variable {a : Nat} {children siblings : Forest Nat} {nodes : List Nat}

theorem of_children (h : Grown results (.node a children siblings)) : Grown results children where
  children := h.children.2.1
  nodup := (nodup_append.mp (nodup_cons.mp h.nodup).2).1
  ends x hx := h.ends x (mem_cons_of_mem _ (mem_append_left _ hx))
  childless x hx := h.childless x (mem_cons_of_mem _ (mem_append_left _ hx))

theorem of_siblings (h : Grown results (.node a children siblings)) : Grown results siblings where
  children := h.children.2.2
  nodup := (nodup_append.mp (nodup_cons.mp h.nodup).2).2.1
  ends x hx := h.ends x (mem_cons_of_mem _ (mem_append_right _ hx))
  childless x hx := h.childless x (mem_cons_of_mem _ (mem_append_right _ hx))

/-- The trees are apart. -/
theorem disjoint (h : Grown results (.node a children siblings)) :
    a ∉ children.nodes ∧ a ∉ siblings.nodes ∧ ∀ x ∈ siblings.nodes, x ∉ a :: children.nodes := by
  obtain ⟨ha, hnodup⟩ := nodup_cons.mp h.nodup
  refine ⟨fun hmem ↦ ha (mem_append_left _ hmem), fun hmem ↦ ha (mem_append_right _ hmem),
    fun x hx hmem ↦ ?_⟩
  cases mem_cons.mp hmem with
  | inl heq => exact ha (mem_append_right _ (heq ▸ hx))
  | inr hmem => exact (nodup_append.mp hnodup).2.2 x hmem x hx rfl

/-- Results that have moved elsewhere. -/
theorem moved (h : Grown results forest) (hm : Moved nodes results results')
    (hdisjoint : ∀ x ∈ forest.nodes, x ∉ nodes) : Grown results' forest where
  children := h.children.congr fun x _ l hl ↦ (hm.children x).trans hl
  nodup := h.nodup
  ends x hx := by
    rw [hm.rest x (hdisjoint x hx)]
    exact h.ends x hx
  childless x hx := by
    rw [hm.rest x (hdisjoint x hx)]
    exact h.childless x hx

theorem nonneg (h : Grown results forest) : ∀ x ∈ forest.nodes, 0 ≤ durationOf results x :=
  fun x hx ↦ Int.sub_nonneg_of_le (h.ends x hx).le

end Grown

/-- `adjust_durations_dfs` widens each event of a forest to its children. -/
theorem adjustDurations_forest (acc : Int) (h : Grown results forest) (hk : forest.nodes.length ≤ k) :
    ∃ results', forest.tops.foldlM (fun state child ↦ do
        let (results, duration) ← adjustDurationsDfs n k state.1 child
        return (results, state.2 + duration)) (results, acc) =
          some (results', acc + forest.weight (durationOf results')) ∧
      Moved forest.nodes results results' ∧
      (∀ x, startOf results' x = startOf results x) ∧
      forest.Widened (durationOf results) (durationOf results') := by
  induction forest generalizing k results acc with
  | nil =>
    refine ⟨results, ?_, .refl .., fun _ ↦ rfl, trivial⟩
    simp [Forest.tops]
  | node a children siblings ihc ihs =>
    obtain ⟨hac, has, hapart⟩ := h.disjoint
    rw [Forest.nodes, cons_append, length_cons, length_append] at hk
    cases k with
    | zero => omega
    | succ k =>
      obtain ⟨results₁, hfold, hmoved₁, hstart₁, hwidened₁⟩ :=
        ihc (k := k) 0 h.of_children (by omega)
      rw [← h.children.1, Int.zero_add] at hfold
      have halloc : (results a).extraFields = .allocation →
          children.weight (durationOf results₁) = 0 := by
        intro he
        have hnil := h.children.1.symm.trans (h.childless a mem_cons_self he)
        rw [Forest.weight, hnil]
        rfl
      obtain ⟨results₂, hadjust, hmoved₂, hstart₂, hdur₂⟩ := adjustDurationsDfs_succ
        (h.ends a mem_cons_self) hfold (hmoved₁.rest a hac) halloc
      have hmoved : Moved (a :: children.nodes) results results₂ :=
        (hmoved₁.trans hmoved₂).mono (by simp)
      obtain ⟨results₃, hrest, hmoved₃, hstart₃, hwidened₃⟩ := ihs (k := k + 1)
        (acc + durationOf results₂ a) (h.of_siblings.moved hmoved hapart) (by omega)
      have hkept : ∀ x ∈ a :: children.nodes, durationOf results₃ x = durationOf results₂ x :=
        fun x hx ↦ hmoved₃.durationOf_eq fun hmem ↦ hapart x hmem hx
      have hbelow : ∀ x ∈ children.nodes, durationOf results₃ x = durationOf results₁ x := by
        intro x hx
        rw [hkept x (mem_cons_of_mem _ hx)]
        apply hmoved₂.durationOf_eq
        intro hmem
        exact hac (mem_singleton.mp hmem ▸ hx)
      refine ⟨results₃, ?_, ?_, ?_, ?_, ?_, ?_⟩
      · rw [Forest.tops, foldlM_cons, hadjust, Forest.weight_node,
          hkept a mem_cons_self, ← Int.add_assoc]
        exact hrest
      · exact (hmoved.trans hmoved₃).mono fun x hx ↦ hx
      · intro x
        rw [hstart₃]
        by_cases hx : x = a
        · rw [hx, hstart₂]
        · rw [hmoved₂.startOf_eq (by simpa using hx), hstart₁]
      · rw [hkept a mem_cons_self, hdur₂,
          Forest.weight_congr fun x hx ↦ hbelow x (Forest.tops_subset_nodes hx)]
      · exact hwidened₁.congr (fun _ _ ↦ rfl) hbelow
      · apply hwidened₃.congr _ fun _ _ ↦ rfl
        intro x hx
        exact (hmoved.durationOf_eq (hapart x hx)).symm

/-! ### Starts -/

/-- The end of a result that is moved with its duration. -/
theorem Result.end_moveTo (r : Result) (t : Int) :
    (r.moveTo t (r.end_ - r.startTimeNs)).end_ = t + (r.end_ - r.startTimeNs) := by
  by_cases he : r.extraFields = .allocation
  · rw [moveTo_end_allocation r he, end_allocation r he]
    omega
  · exact moveTo_end r he ..

theorem shift_eq (results : Results) (x : Nat) (t : Int) :
    (if (results x).startTimeNs ≠ t then shift results x t else results) =
      update results x ((results x).moveTo t (durationOf results x)) := by
  by_cases h : (results x).startTimeNs = t
  · rw [if_neg (not_not.mpr h), ← h]
    have hself : (results x).moveTo (results x).startTimeNs (durationOf results x) = results x :=
      (results x).moveTo_self
    rw [hself, update_eq_self]
  · rw [if_pos h, shift]
    rw [moveTo]
    cases he : (results x).extraFields with
    | functionOp e f =>
      have hend : (results x).end_ = e := by rw [end_, he]
      simp only [durationOf, endOf, startOf, hend]
    | allocation => rfl

/-- The events of a forest are laid out from a time on, each with its children, and keep their
durations. -/
theorem adjustTimestamps_forest (h : Grown results forest) (hk : forest.nodes.length ≤ k)
    (hroomy : forest.Roomy (durationOf results)) (ht : minTime < t) :
    ∃ results', forest.tops.foldlM
        (fun state child ↦ adjustTimestampsDfs n k state.1 child state.2) (results, t) =
          some (results', t + forest.weight (durationOf results)) ∧
      Moved forest.nodes results results' ∧
      (∀ x, durationOf results' x = durationOf results x) ∧
      (∀ x ∈ forest.nodes, Ends (results' x)) ∧
      forest.Placed (startOf results') (durationOf results) t := by
  induction forest generalizing k results t with
  | nil =>
    refine ⟨results, ?_, .refl .., fun _ ↦ rfl, nofun, trivial⟩
    simp [Forest.tops]
  | node a children siblings ihc ihs =>
    obtain ⟨hac, has, hapart⟩ := h.disjoint
    rw [Forest.nodes, cons_append, length_cons, length_append] at hk
    have hnonneg := h.nonneg a mem_cons_self
    have hroom := hroomy.1
    cases k with
    | zero => omega
    | succ k =>
      have hshift := shift_eq results a t
      have hmoved₁ := Moved.update results a t (durationOf results a)
      generalize hresults₁ : update results a
        ((results a).moveTo t (durationOf results a)) = results₁ at hshift hmoved₁
      have hself : results₁ a = (results a).moveTo t (durationOf results a) := by
        rw [← hresults₁, update_self]
      have hstart₁ : startOf results₁ a = t := by
        rw [startOf, hself]
        rfl
      have hend₁ : (results₁ a).end_ = t + durationOf results a := by
        rw [hself]
        exact (results a).end_moveTo t
      have hends₁ : Ends (results₁ a) := by
        refine ⟨?_, by omega⟩
        have hstart₁ : (results₁ a).startTimeNs = t := hstart₁
        omega
      have hgrown₁ : Grown results₁ children := h.of_children.moved hmoved₁ fun x hx hmem ↦
        hac (mem_singleton.mp hmem ▸ hx)
      have hdur₁ : ∀ x, durationOf results₁ x = durationOf results x := by
        intro x
        by_cases hx : x = a
        · rw [hx, durationOf, endOf]
          omega
        · exact hmoved₁.durationOf_eq (by simpa using hx)
      have hdur₁' : durationOf results₁ = durationOf results := funext hdur₁
      have htotal : ((results₁ a).children.map fun child ↦
          endTimeNs results₁ n child - (results₁ child).startTimeNs).sum =
            children.weight (durationOf results) := by
        rw [hmoved₁.children, h.children.1]
        congr 1
        apply map_congr_left
        intro c hc
        rw [(hgrown₁.ends c (Forest.tops_subset_nodes hc)).endTimeNs, ← hdur₁]
        rfl
      obtain ⟨results₂, hfold, hmoved₂, hdur₂, hends₂, hplaced₂⟩ := ihc (k := k)
        (t := t + durationOf results a - children.weight (durationOf results)) hgrown₁ (by omega)
        (hdur₁' ▸ hroomy.2.1) (by omega)
      have hself₂ : results₂ a = results₁ a := hmoved₂.rest a hac
      have hadjust : adjustTimestampsDfs n (k + 1) results a t =
          some (results₂, t + durationOf results a) := by
        have hend₂ : endTimeNs results₂ n a = t + durationOf results a := by
          rw [Ends.endTimeNs (hself₂ ▸ hends₁), hself₂, hend₁]
        rw [adjustTimestampsDfs]
        simp only [hshift, htotal, hends₁.endTimeNs, hend₁]
        rw [hmoved₁.children, h.children.1, hfold]
        simp only [bind_eq_bind, bind_some, hend₂]
        rfl
      have hmoved : Moved (a :: children.nodes) results results₂ :=
        (hmoved₁.trans hmoved₂).mono (by simp)
      have hdur : durationOf results₂ = durationOf results := by
        funext x
        rw [hdur₂, hdur₁]
      obtain ⟨results₃, hrest, hmoved₃, hdur₃, hends₃, hplaced₃⟩ := ihs (k := k + 1)
        (t := t + durationOf results a) (h.of_siblings.moved hmoved hapart) (by omega)
        (hdur ▸ hroomy.2.2) (by omega)
      have hkept : ∀ x ∈ a :: children.nodes, results₃ x = results₂ x :=
        fun x hx ↦ hmoved₃.rest x fun hmem ↦ hapart x hmem hx
      refine ⟨results₃, ?_, ?_, ?_, ?_, ?_, ?_, ?_⟩
      · rw [Forest.tops, foldlM_cons, hadjust, Forest.weight_node, ← Int.add_assoc, ← hdur]
        rw [← hdur] at hrest
        exact hrest
      · exact (hmoved.trans hmoved₃).mono fun x hx ↦ hx
      · intro x
        rw [hdur₃, hdur]
      · refine Forest.forall_nodes.mpr ⟨?_, fun x hx ↦ ?_, hends₃⟩
        · rw [hkept a mem_cons_self, hself₂]
          exact hends₁
        · rw [hkept x (mem_cons_of_mem _ hx)]
          exact hends₂ x hx
      · rw [startOf, hkept a mem_cons_self, hself₂]
        exact hstart₁
      · rw [hdur₁'] at hplaced₂
        apply hplaced₂.congr _ fun _ _ ↦ rfl
        intro x hx
        rw [startOf, startOf, hkept x (mem_cons_of_mem _ hx)]
      · rw [hdur] at hplaced₃
        exact hplaced₃

/-! ### Roots -/

/-- The results of a forest whose events are widened. -/
theorem Grown.widened (h : Grown results forest) (hm : Moved forest.nodes results results')
    (hstart : ∀ x, startOf results' x = startOf results x)
    (hwidened : forest.Widened (durationOf results) (durationOf results')) :
    Grown results' forest where
  children := h.children.congr fun x _ l hl ↦ (hm.children x).trans hl
  nodup := h.nodup
  ends x hx := by
    have hends := h.ends x hx
    have hle := hwidened.le x hx
    have hs := hstart x
    rw [durationOf, durationOf] at hle
    have hend : endOf results x ≤ endOf results' x := by omega
    constructor
    · show startOf results' x ≤ endOf results' x
      rw [hs]
      exact hends.le.trans hend
    · exact hends.real.trans_le hend
  childless x hx he := by
    rw [hm.children]
    exact h.childless x hx ((hm.allocation_iff x).mp he)

/-- A root is widened with its tree, and put at its start or after the root before it. -/
theorem adjustRoot_eq {a : Nat} {children : Forest Nat} {m : Int}
    (h : Grown results (.node a children .nil)) (hroot : (results a).parent = none)
    (hn : (Forest.node a children .nil).nodes.length ≤ n) (hm : minTime < m) :
    ∃ results', adjustRoot n (results, m) a =
        some (results', max (startOf results a) m + durationOf results' a) ∧
      Moved (a :: children.nodes) results results' ∧
      (∀ x ∈ a :: children.nodes, Ends (results' x)) ∧
      startOf results' a = max (startOf results a) m ∧
      children.Placed (startOf results') (durationOf results')
        (startOf results' a + durationOf results' a - children.weight (durationOf results')) ∧
      (Forest.node a children .nil).Widened (durationOf results) (durationOf results') := by
  have hnodes : (Forest.node a children .nil).nodes = a :: children.nodes := append_nil _
  obtain ⟨results₁, hfold₁, hmoved₁, hstart₁, hwidened₁⟩ := adjustDurations_forest 0 h hn
  obtain ⟨results₂, hfold₂, hmoved₂, hdur₂, hends₂, hplaced₂⟩ :=
    adjustTimestamps_forest
      (h.widened hmoved₁ hstart₁ hwidened₁) hn hwidened₁.roomy (lt_max_of_lt_right hm)
  rw [Forest.tops, Forest.tops, foldlM_cons] at hfold₁ hfold₂
  obtain ⟨⟨results₁', total⟩, hbody, hrest⟩ := bind_eq_some_iff.mp hfold₁
  obtain ⟨⟨results₁'', duration⟩, hadjust, hbody⟩ := bind_eq_some_iff.mp hbody
  have hresults₁ : results₁'' = results₁ := by
    cases hbody
    exact (Prod.mk.inj (some.inj hrest)).1
  rw [hresults₁] at hadjust
  simp only [foldlM_nil, bind_pure, Forest.weight_node, Forest.weight_nil, Int.add_zero] at hfold₂
  have hdur : durationOf results₂ = durationOf results₁ := funext hdur₂
  refine ⟨results₂, ?_, ?_, ?_, ?_, ?_, ?_⟩
  · rw [adjustRoot, if_pos hroot, hadjust, hdur]
    have hstart : (results₁ a).startTimeNs = startOf results a := hstart₁ a
    simp only [bind_eq_bind, bind_some, hstart]
    exact hfold₂
  · rw [← hnodes]
    exact (hmoved₁.trans hmoved₂).mono (by simp)
  · rw [← hnodes]
    exact hends₂
  · exact hplaced₂.1
  · rw [hdur, hplaced₂.1]
    exact hplaced₂.2.1
  · rw [hdur]
    exact hwidened₁

/-- The roots are adjusted in their order; other events are passed over. -/
theorem adjustRoots_eq {out : List Nat} {m : Int} (h : Grown results forest)
    (htops : forest.tops = out.filter fun x ↦ decide ((results x).parent = none))
    (hn : forest.nodes.length ≤ n) (hm : minTime < m) :
    ∃ results' m', out.foldlM (adjustRoot n) (results, m) = some (results', m') ∧
      Moved forest.nodes results results' ∧
      (∀ x ∈ forest.nodes, Ends (results' x)) ∧
      forest.Widened (durationOf results) (durationOf results') ∧
      forest.RootsPlaced (startOf results) (startOf results') (durationOf results') m := by
  induction out generalizing forest results m with
  | nil =>
    cases forest with
    | nil => exact ⟨results, m, rfl, .refl .., nofun, trivial, trivial⟩
    | node a children siblings => cases htops
  | cons x out ih =>
    rw [filter_cons] at htops
    split at htops
    · next hroot =>
      have hroot := of_decide_eq_true hroot
      cases forest with
      | nil => cases htops
      | node a children siblings =>
        obtain ⟨rfl, hsiblings⟩ := cons.inj htops
        obtain ⟨-, -, hapart⟩ := h.disjoint
        rw [Forest.nodes, length_append] at hn
        have hgrown : Grown results (.node a children .nil) := by
          refine ⟨⟨h.children.1, h.children.2.1, trivial⟩, ?_, fun y hy ↦ ?_, fun y hy ↦ ?_⟩
          · rw [Forest.nodes, Forest.nodes, append_nil]
            exact (nodup_append.mp h.nodup).1
          · rw [Forest.nodes, Forest.nodes, append_nil] at hy
            exact h.ends y (mem_append_left _ hy)
          · rw [Forest.nodes, Forest.nodes, append_nil] at hy
            exact h.childless y (mem_append_left _ hy)
        obtain ⟨results₁, hadjust, hmoved₁, hends₁, hstart₁, hplaced₁, hwidened₁⟩ :=
          adjustRoot_eq (n := n) hgrown hroot (by simp [Forest.nodes] at hn ⊢; omega) hm
        have hnonneg : 0 ≤ durationOf results₁ a := Int.sub_nonneg_of_le (hends₁ a mem_cons_self).le
        have htops₁ : siblings.tops = out.filter fun x ↦ decide ((results₁ x).parent = none) := by
          simp only [hmoved₁.parent]
          exact hsiblings
        obtain ⟨results₂, m', hfold, hmoved₂, hends₂, hwidened₂, hplaced₂⟩ :=
          ih (m := max (startOf results a) m + durationOf results₁ a)
            (h.of_siblings.moved hmoved₁ hapart) htops₁ (by omega) (by omega)
        have hkept : ∀ x ∈ a :: children.nodes, results₂ x = results₁ x :=
          fun x hx ↦ hmoved₂.rest x fun hmem ↦ hapart x hmem hx
        have hdur : ∀ x ∈ a :: children.nodes, durationOf results₂ x = durationOf results₁ x := by
          intro x hx
          rw [durationOf, durationOf, endOf, endOf, startOf, startOf, hkept x hx]
        have hstart : ∀ x ∈ a :: children.nodes, startOf results₂ x = startOf results₁ x := by
          intro x hx
          rw [startOf, startOf, hkept x hx]
        have hdurc : ∀ x ∈ children.nodes, durationOf results₂ x = durationOf results₁ x :=
          fun x hx ↦ hdur x (mem_cons_of_mem _ hx)
        have hweight : children.weight (durationOf results₂) = children.weight (durationOf results₁) :=
          Forest.weight_congr fun x hx ↦ hdurc x (Forest.tops_subset_nodes hx)
        refine ⟨results₂, m', ?_, ?_, ?_, ⟨?_, ?_, ?_⟩, ?_, ?_, ?_⟩
        · rw [foldlM_cons, hadjust]
          exact hfold
        · exact hmoved₁.trans hmoved₂
        · intro y hy
          cases mem_append.mp hy with
          | inl hy =>
            rw [hkept y hy]
            exact hends₁ y hy
          | inr hy => exact hends₂ y hy
        · rw [hdur a mem_cons_self, hweight]
          exact hwidened₁.1
        · exact hwidened₁.2.1.congr (fun _ _ ↦ rfl) hdurc
        · apply hwidened₂.congr _ fun _ _ ↦ rfl
          intro y hy
          exact (hmoved₁.durationOf_eq (hapart y hy)).symm
        · rw [hstart a mem_cons_self, hstart₁]
        · rw [hstart a mem_cons_self, hdur a mem_cons_self, hweight]
          exact hplaced₁.congr (fun y hy ↦ hstart y (mem_cons_of_mem _ hy)) hdurc
        · rw [hstart a mem_cons_self, hdur a mem_cons_self, hstart₁]
          apply hplaced₂.congr
          intro y hy
          exact (hmoved₁.startOf_eq (hapart y hy)).symm
    · next hroot =>
      have hroot : (results x).parent ≠ none := by simpa using hroot
      obtain ⟨results', m', hfold, hrest⟩ := ih h htops hn hm
      refine ⟨results', m', ?_, hrest⟩
      rw [foldlM_cons, adjustRoot, if_neg hroot]
      exact hfold

end Hisab.Profiler.Collection
