import Mathlib.Data.Set.Finite.Basic

/-!
# Labelled transition systems

Initial states and a labelled step relation, the finite runs they generate, and the two
induction rules every safety proof of this development goes through: what each step
preserves holds along a run, and what holds initially besides holds in every reachable
state. `restrict` keeps the steps that meet a condition on the state before them.
-/

namespace Hisab.Base

universe u v

/-- Initial states and labelled steps. -/
structure TransitionSystem (S : Type u) (L : Type v) where
  init : S → Prop
  step : S → L → S → Prop

namespace TransitionSystem

variable {S : Type u} {L : Type v} {M : TransitionSystem S L} {s t : S} {ls : List L}

/-- A finite run from its first to its last state, with the labels in order. -/
inductive Run (M : TransitionSystem S L) : S → List L → S → Prop
  | nil (s : S) : Run M s [] s
  | cons {s t r : S} {l : L} {ls : List L} : M.step s l t → Run M t ls r → Run M s (l :: ls) r

/-- Some run from an initial state ends here. -/
def Reachable (M : TransitionSystem S L) (s : S) : Prop := ∃ s₀ ls, M.init s₀ ∧ M.Run s₀ ls s

theorem Run.append {s t r : S} {ls ks : List L} (h : M.Run s ls t) (k : M.Run t ks r) :
    M.Run s (ls ++ ks) r := by
  induction h with
  | nil => exact k
  | cons hs _ ih => exact .cons hs (ih k)

theorem Run.single {l : L} (h : M.step s l t) : M.Run s [l] t := .cons h (.nil t)

/-- A system whose steps a function computes runs as the function folds. -/
theorem Run.of_foldlM {f : S → L → Option S} (hf : ∀ s l t, f s l = some t → M.step s l t)
    (h : ls.foldlM f s = some t) : M.Run s ls t := by
  induction ls generalizing s with
  | nil =>
    obtain rfl : s = t := by simpa using h
    exact .nil s
  | cons l ls ih =>
    rw [List.foldlM_cons, Option.bind_eq_bind, Option.bind_eq_some_iff] at h
    obtain ⟨r, hr, ht⟩ := h
    exact .cons (hf s l r hr) (ih ht)

/-- What every step preserves, a run preserves. -/
theorem Run.invariant {I : S → Prop} (hstep : ∀ s l t, I s → M.step s l t → I t) (h : M.Run s ls t)
    (hs : I s) : I t := by
  induction h with
  | nil => exact hs
  | cons hl _ ih => exact ih (hstep _ _ _ hs hl)

theorem Reachable.of_init {s : S} (h : M.init s) : M.Reachable s := ⟨s, [], h, .nil s⟩

theorem Reachable.step {l : L} (h : M.Reachable s) (hs : M.step s l t) : M.Reachable t := by
  obtain ⟨s₀, ls, hi, hr⟩ := h
  exact ⟨s₀, ls ++ [l], hi, hr.append (.single hs)⟩

theorem Reachable.run (h : M.Reachable s) (hr : M.Run s ls t) : M.Reachable t := by
  obtain ⟨s₀, ks, hi, hk⟩ := h
  exact ⟨s₀, ks ++ ls, hi, hk.append hr⟩

/-- What holds initially and is preserved by every step holds in every reachable state. -/
theorem Reachable.invariant {I : S → Prop} (hinit : ∀ s, M.init s → I s)
    (hstep : ∀ s l t, I s → M.step s l t → I t) {s : S} (h : M.Reachable s) : I s := by
  obtain ⟨s₀, ls, hi, hr⟩ := h
  exact hr.invariant hstep (hinit s₀ hi)

/-- The steps whose label meets `P` in the state before them. -/
def restrict (M : TransitionSystem S L) (P : S → L → Prop) : TransitionSystem S L where
  init := M.init
  step s l t := M.step s l t ∧ P s l

theorem Run.of_restrict {P : S → L → Prop} (h : (M.restrict P).Run s ls t) : M.Run s ls t := by
  induction h with
  | nil => exact .nil _
  | cons hs _ ih => exact .cons hs.1 ih

theorem Reachable.of_restrict {P : S → L → Prop} {s : S}
    (h : (M.restrict P).Reachable s) : M.Reachable s := by
  obtain ⟨s₀, ls, hi, hr⟩ := h
  exact ⟨s₀, ls, hi, hr.of_restrict⟩

/-- A stronger condition leaves fewer runs. -/
theorem Run.restrict_mono {P Q : S → L → Prop} (hPQ : ∀ s l, P s l → Q s l)
    (h : (M.restrict P).Run s ls t) : (M.restrict Q).Run s ls t := by
  induction h with
  | nil => exact .nil _
  | cons hs _ ih => exact .cons ⟨hs.1, hPQ _ _ hs.2⟩ ih

theorem Reachable.restrict_mono {P Q : S → L → Prop} (hPQ : ∀ s l, P s l → Q s l) {s : S}
    (h : (M.restrict P).Reachable s) : (M.restrict Q).Reachable s := by
  obtain ⟨s₀, ls, hi, hr⟩ := h
  exact ⟨s₀, ls, hi, hr.restrict_mono hPQ⟩

/-- The steps that end in a state that meets `P`. -/
def within (M : TransitionSystem S L) (P : S → Prop) : TransitionSystem S L where
  init := M.init
  step s l t := M.step s l t ∧ P t

end TransitionSystem

/-- A guarded step. -/
theorem ite_some_iff {S : Type u} {p : Prop} [Decidable p] {a b : S} :
    (if p then some a else none) = some b ↔ p ∧ a = b := by
  rw [Option.ite_none_right_eq_some, Option.some.injEq]

end Hisab.Base

/-!
## Schedules of a dependency relation

`dep v u` says that `v` needs `u` first. A list is a schedule when whatever an entry needs
stands before it. A schedule holds no point of a cycle, and a schedule of finitely many
points that leaves out nothing it could append holds all of them when there is no cycle.
-/

namespace Hisab.Base

universe u

variable {V : Type u} {dep : V → V → Prop} {order : List V} {v w : V}

/-- Whatever an entry needs stands before it. -/
def Schedule (dep : V → V → Prop) (order : List V) : Prop :=
  ∀ pre v post, order = pre ++ v :: post → ∀ u, dep v u → u ∈ pre

/-- Some point needs itself, directly or through others. -/
def Cyclic (dep : V → V → Prop) : Prop := ∃ v, Relation.TransGen dep v v

theorem Schedule.nil : Schedule dep [] := by
  intro pre v post h
  simp at h

theorem schedule_snoc :
    Schedule dep (order ++ [v]) ↔ Schedule dep order ∧ ∀ u, dep v u → u ∈ order := by
  constructor
  · intro h
    refine ⟨fun pre w post he u hu ↦ ?_, fun u hu ↦ h order v [] rfl u hu⟩
    exact h pre w (post ++ [v]) (by simp [he]) u hu
  · rintro ⟨ho, hv⟩ pre w post he u hu
    rcases post.eq_nil_or_concat with rfl | ⟨post, x, rfl⟩
    · obtain ⟨rfl, hw⟩ := List.append_inj' he rfl
      obtain rfl : v = w := by simpa using hw
      exact hv u hu
    · have he' : order ++ [v] = (pre ++ w :: post) ++ [x] := by simpa using he
      obtain ⟨rfl, _⟩ := List.append_inj' he' rfl
      exact ho pre w post rfl u hu

/-- A schedule is closed under what its entries need. -/
theorem Schedule.closed (h : Schedule dep order) (hv : v ∈ order) (hw : dep v w) : w ∈ order := by
  obtain ⟨pre, post, rfl⟩ := List.append_of_mem hv
  exact List.mem_append_left _ (h pre v post rfl w hw)

theorem Schedule.closed_reflTransGen (h : Schedule dep order) (hv : v ∈ order)
    (hw : Relation.ReflTransGen dep v w) : w ∈ order := by
  induction hw with
  | refl => exact hv
  | tail _ hd ih => exact h.closed ih hd

/-- No entry of a schedule lies on a cycle. -/
theorem Schedule.not_cyclic (h : Schedule dep order) (hv : v ∈ order) :
    ¬Relation.TransGen dep v v := by
  intro hc
  induction order using List.reverseRecOn generalizing v with
  | nil => cases hv
  | append_singleton order w ih =>
    obtain ⟨ho, hw⟩ := schedule_snoc.mp h
    have hin : v ∈ order := by
      rcases List.mem_append.mp hv with hv | hv
      · exact hv
      · obtain rfl : v = w := by simpa using hv
        obtain ⟨u, hu, hr⟩ := Relation.TransGen.head'_iff.mp hc
        exact ho.closed_reflTransGen (hw u hu) hr
    exact ih ho hin hc

/-- Without a cycle, a list that holds every point all of whose needs it holds, holds every
point. -/
theorem subset_of_acyclic {nodes : List V} (hclosed : ∀ v u, dep v u → u ∈ nodes)
    (hacyclic : ¬Cyclic dep)
    (hfull : ∀ v ∈ nodes, (∀ u, dep v u → u ∈ order) → v ∈ order) : nodes ⊆ order := by
  let r : {v // v ∈ nodes} → {v // v ∈ nodes} → Prop := fun a b ↦ Relation.TransGen dep b.1 a.1
  have hirrefl : Std.Irrefl r := ⟨fun a ha ↦ hacyclic ⟨a.1, ha⟩⟩
  have hfinite : Finite {v // v ∈ nodes} := List.finite_toSet nodes
  have hwf : WellFounded r := Finite.wellFounded_of_trans_of_irrefl r
  intro v hv
  -- Induction along the dependencies: they end, since no cycle runs through finitely many.
  suffices h : ∀ a : {v // v ∈ nodes}, a.1 ∈ order from h ⟨v, hv⟩
  intro a
  induction a using hwf.induction with
  | _ a ih =>
    refine hfull a.1 a.2 fun u hu ↦ ?_
    exact ih ⟨u, hclosed _ _ hu⟩ (Relation.TransGen.single hu)

end Hisab.Base
