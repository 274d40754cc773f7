import Hisab.Profiler.StepCallbacks
import Mathlib.Data.List.Forall2

/-!
# The sampled callbacks of a cache entry

Between two calls of `update` in `record_function.cpp`, one countdown stands for all callbacks of
an entry: the calls it has skipped are taken off each counter when it ends. The gaps that
`sampleTries` draws are recorded beside the entry, those of each callback in order.
-/

namespace Hisab.Profiler.RecordFunctions

open List CacheEntry

open List (Forall₂)

variable {F Gen : Type}

/-- The running sums of some gaps. -/
def partialSums : List Int → List Int
  | [] => []
  | gap :: gaps => gap :: (partialSums gaps).map (gap + ·)

theorem partialSums_concat (gaps : List Int) (gap : Int) :
    partialSums (gaps ++ [gap]) = partialSums gaps ++ [gaps.sum + gap] := by
  induction gaps with
  | nil => simp [partialSums]
  | cons g gaps ih => simp [partialSums, ih, Int.add_assoc]

/-- The callbacks that are not sampled, and those with a gap that ends at this call. -/
def expectedActive (callbacks : List (RecordFunctionCallback F)) (gaps : List (List Int))
    (n : Int) : List (RecordFunctionCallback F) :=
  ((callbacks.zip gaps).filter fun i ↦ i.1.unsampled || n ∈ partialSums i.2).map Prod.fst

/-- An entry with its generator and the gaps drawn for each of its callbacks so far. -/
structure SampledEntry (F Gen : Type) where
  entry : CacheEntry F
  generator : Gen
  gaps : List (List Int)

namespace SampledEntry

variable (geometric : Rat → Gen → Nat × Gen) (threadId : Nat)

/-- After `update`, each sampled callback has one gap. -/
def update (callbacks : List (RecordFunctionCallback F)) (generator : Gen) (entry : CacheEntry F) :
    SampledEntry F Gen :=
  let (entry, generator) := CacheEntry.update geometric threadId callbacks generator entry
  { entry, generator, gaps := entry.callbacks.map fun i ↦ if i.2 < 0 then [] else [i.2] }

/-- The counters when the countdown has ended. -/
def used (entry : CacheEntry F) : List (RecordFunctionCallback F × Int) :=
  entry.callbacks.map fun i ↦ (i.1, if 0 < i.2 then i.2 - entry.stepsForThisUpdate else i.2)

/-- A counter that has run out is drawn again, and that gap follows the others. -/
def record : List (RecordFunctionCallback F × Int) → List (RecordFunctionCallback F × Int) →
    List (List Int) → List (List Int)
  | i :: used, j :: redrawn, gap :: gaps =>
    (if i.2 = 0 then gap ++ [j.2] else gap) :: record used redrawn gaps
  | _, _, _ => []

/-- `getActiveCallbacks`, with what it draws. -/
def call (s : SampledEntry F Gen) : SampledEntry F Gen :=
  let (entry, generator) := s.entry.getActiveCallbacksImpl geometric threadId s.generator
  { entry, generator
    gaps := if s.entry.samplingCountdown - 1 = 0 then record (used s.entry) entry.callbacks s.gaps
      else s.gaps }

/-- After a number of calls. -/
def calls (s : SampledEntry F Gen) (n : Nat) : SampledEntry F Gen := (call geometric threadId)^[n] s

/-! ### Counters and gaps -/

/-- The counter of a callback at a rebuild: the calls until its gaps, which have ended before but
for the last one, end. -/
structure Due (r : Int) (tries : Int) (gaps : List Int) : Prop where
  nonneg : 0 ≤ tries
  eq : tries = gaps.sum - r
  mem : gaps.sum ∈ partialSums gaps
  ended : ∀ k ∈ partialSums gaps, k < r ∨ k = gaps.sum

/-- The same after the callbacks that run have been drawn again, with this many calls until the
next rebuild: one, if a callback runs. -/
structure Waiting (r steps tries : Int) (gaps : List Int) : Prop where
  pos : 0 < tries
  eq : tries = gaps.sum - r
  mem : gaps.sum ∈ partialSums gaps
  ended : ∀ k ∈ partialSums gaps, k ≤ r ∨ k = gaps.sum
  steps_le : steps ≤ tries
  quiet : 1 < steps → r ∉ partialSums gaps

/-- A callback that is not sampled has no gaps; the gaps of the others meet `P`. -/
def Row (P : Int → List Int → Prop) (i : RecordFunctionCallback F × Int) (gaps : List Int) : Prop :=
  if i.1.unsampled then i.2 < 0 ∧ gaps = [] else P i.2 gaps

variable {geometric threadId} {r n tries steps : Int} {gap : List Int} {gaps gaps' : List (List Int)}
  {callbacks : List (RecordFunctionCallback F)} {rows : List (RecordFunctionCallback F × Int)}
  {s : SampledEntry F Gen}

theorem mem_partialSums_iff (h : Due r tries gap) : r ∈ partialSums gap ↔ tries ≤ 0 := by
  have heq := h.eq
  have hnonneg := h.nonneg
  constructor
  · intro hr
    rcases h.ended r hr with hlt | hsum <;> omega
  · intro hle
    have hsum : r = gap.sum := by omega
    exact hsum ▸ h.mem

theorem Due.waiting (h : Due r tries gap) (hpos : 0 < tries) (hsteps : steps ≤ tries) :
    Waiting r steps tries gap :=
  ⟨hpos, h.eq, h.mem, fun k hk ↦ (h.ended k hk).imp_left le_of_lt, hsteps, fun _ hr ↦
    not_le.mpr hpos ((mem_partialSums_iff h).mp hr)⟩

/-- A gap that is drawn when the last one ends. -/
theorem Due.redraw (h : Due r 0 gap) (htries : 0 < tries) (hsteps : steps ≤ 1) :
    Waiting r steps tries (gap ++ [tries]) := by
  have hsum : gap.sum = r := by
    have := h.eq
    omega
  have hconcat : (gap ++ [tries]).sum = r + tries := by simp [hsum]
  refine ⟨htries, by omega, ?_, ?_, by omega, by omega⟩
  · rw [partialSums_concat, hsum, hconcat]
    exact mem_append_right _ mem_cons_self
  · intro k hk
    rw [partialSums_concat, hsum, mem_append, mem_singleton] at hk
    rcases hk with hk | rfl
    · left
      rcases h.ended k hk with hlt | rfl
      · exact hlt.le
      · exact hsum.le
    · exact .inr hconcat.symm

theorem Waiting.used (h : Waiting r steps tries gap) (hpos : 0 < steps) :
    Due (r + steps) (tries - steps) gap := by
  have heq := h.eq
  exact ⟨Int.sub_nonneg_of_le h.steps_le, by omega, h.mem, fun k hk ↦
    (h.ended k hk).imp_left (by omega)⟩

theorem expectedActive_congr {m : Int} (h : Forall₂ (fun gap gap' ↦ m ∈ partialSums gap ↔
    n ∈ partialSums gap') gaps gaps') (callbacks : List (RecordFunctionCallback F)) :
    expectedActive callbacks gaps m = expectedActive callbacks gaps' n := by
  induction h generalizing callbacks with
  | nil => simp [expectedActive]
  | cons hgap _ ih =>
    cases callbacks with
    | nil => rfl
    | cons callback callbacks =>
      have ih := ih callbacks
      simp only [expectedActive, zip_cons_cons, filter_cons, hgap] at ih ⊢
      split
      · rw [map_cons, map_cons, ih]
      · exact ih

/-- The callbacks whose counter is not positive are those that should run. -/
theorem active_of_due (h : Forall₂ (Row (Due r)) rows gaps) :
    (rows.filter fun i ↦ i.2 ≤ 0).map Prod.fst = expectedActive (rows.map Prod.fst) gaps r := by
  induction h with
  | nil => rfl
  | @cons i gap _ _ hrow _ ih =>
    have hiff : (i.1.unsampled || decide (r ∈ partialSums gap)) = decide (i.2 ≤ 0) := by
      rw [Row] at hrow
      split at hrow
      · next hu => simp [hu, hrow.1.le]
      · next hu => simp [hu, mem_partialSums_iff hrow]
    simp only [expectedActive, map_cons, zip_cons_cons, filter_cons, hiff] at ih ⊢
    split
    · rw [map_cons, map_cons, ih]
    · exact ih

/-- The countdown is the smallest counter, or one if a callback runs. -/
theorem countdown_spec (rows : List (RecordFunctionCallback F × Int)) :
    1 ≤ CacheEntry.countdown rows ∧
      ∀ i ∈ rows, 0 ≤ i.2 → CacheEntry.countdown rows ≤ max 1 i.2 := by
  have hfold : ∀ (rows : List (RecordFunctionCallback F × Int)) (countdown : Int), 1 ≤ countdown →
      let last := rows.foldl (fun countdown i ↦
        if i.2 < 0 then countdown else if i.2 = 0 then 1 else min countdown i.2) countdown
      1 ≤ last ∧ last ≤ countdown ∧ ∀ i ∈ rows, 0 ≤ i.2 → last ≤ max 1 i.2 := by
    intro rows
    induction rows with
    | nil => exact fun _ h ↦ ⟨h, le_rfl, nofun⟩
    | cons i rows ih =>
      intro countdown h
      simp only [foldl_cons, forall_mem_cons]
      split
      · obtain ⟨h₁, h₂, h₃⟩ := ih countdown h
        exact ⟨h₁, h₂, by omega, h₃⟩
      · split
        · obtain ⟨h₁, h₂, h₃⟩ := ih 1 le_rfl
          exact ⟨h₁, by omega, by omega, h₃⟩
        · obtain ⟨h₁, h₂, h₃⟩ := ih (min countdown i.2) (by omega)
          exact ⟨h₁, by omega, by omega, h₃⟩
  obtain ⟨h₁, -, h₃⟩ := hfold rows (2 ^ 31 - 1) (by decide)
  exact ⟨h₁, h₃⟩

variable (geometric) in
/-- What is drawn again starts a new gap; no sum up to this call changes. -/
theorem rows_redrawTries (h : Forall₂ (Row (Due r)) rows gaps) (generator : Gen)
    (hsteps : ∀ i ∈ rows, 0 ≤ i.2 → steps ≤ max 1 i.2) :
    let redrawn := (redrawTries geometric rows generator).1
    Forall₂ (Row (Waiting r steps)) redrawn (record rows redrawn gaps) ∧
    Forall₂ (fun gap gap' ↦ ∀ k ≤ r, k ∈ partialSums gap ↔ k ∈ partialSums gap') gaps
      (record rows redrawn gaps) := by
  induction h generalizing generator with
  | nil => exact ⟨.nil, .nil⟩
  | @cons i gap rows gaps hrow _ ih =>
    obtain ⟨hi, hsteps⟩ := forall_mem_cons.mp hsteps
    rw [redrawTries]
    by_cases hzero : i.2 = 0
    · rw [if_pos hzero]
      obtain ⟨hwaiting, hsums⟩ := ih (sampleTries geometric i.1.samplingProb generator).2 hsteps
      have hpos : 0 < (sampleTries geometric i.1.samplingProb generator).1 :=
        Int.natCast_succ_pos (geometric i.1.samplingProb generator).1
      rw [Row] at hrow
      split at hrow
      · omega
      · next hu =>
        rw [hzero] at hrow hi
        refine ⟨.cons ?_ hwaiting, .cons ?_ hsums⟩
        · rw [Row, if_neg hu, if_pos hzero]
          exact hrow.redraw hpos (hi le_rfl)
        · intro k hk
          rw [if_pos hzero, partialSums_concat, mem_append, mem_singleton]
          have heq := hrow.eq
          exact ⟨.inl, fun h ↦ h.resolve_right (by omega)⟩
    · rw [if_neg hzero]
      obtain ⟨hwaiting, hsums⟩ := ih generator hsteps
      refine ⟨.cons ?_ hwaiting, .cons ?_ hsums⟩
      · rw [if_neg hzero]
        rw [Row] at hrow
        split at hrow
        · next hu => rwa [Row, if_pos hu]
        · next hu =>
          have hpos := hrow.nonneg.lt_of_ne' hzero
          rw [Row, if_neg hu]
          exact hrow.waiting hpos ((hi hrow.nonneg).trans (max_le hpos le_rfl))
      · rw [if_neg hzero]
        exact fun _ _ ↦ Iff.rfl

/-! ### Calls between two updates -/

/-- The entry at a call, with the call at which it was rebuilt last: the countdown has been lowered
since then. -/
structure Ok (callbacks : List (RecordFunctionCallback F)) (n r : Int) (s : SampledEntry F Gen) :
    Prop where
  kept : s.entry.callbacks.map Prod.fst = callbacks
  positive : 1 ≤ s.entry.samplingCountdown
  le : r ≤ n
  countdown : s.entry.samplingCountdown = s.entry.stepsForThisUpdate - (n - r)
  rows : Forall₂ (Row (Waiting r s.entry.stepsForThisUpdate)) s.entry.callbacks s.gaps
  active : s.entry.activeCallbacks.callbacks = expectedActive callbacks s.gaps r

theorem rows_used (h : s.Ok callbacks n r) (hlast : s.entry.samplingCountdown - 1 = 0) :
    Forall₂ (Row (Due (n + 1))) (used s.entry) s.gaps := by
  rw [used, forall₂_map_left_iff]
  have hcountdown := h.countdown
  have hle := h.le
  have heq : n + 1 = r + s.entry.stepsForThisUpdate := by omega
  refine h.rows.imp fun i gap hrow ↦ ?_
  rw [Row] at hrow
  split at hrow
  · next hu => rwa [Row, if_pos hu, if_neg (by omega)]
  · next hu =>
    rw [Row, if_neg hu, if_pos hrow.pos, heq]
    exact hrow.used (by omega)

/-- One call: at the end of the countdown the counters are lowered, the active set is rebuilt and
the callbacks that run are drawn again. -/
theorem Ok.call (h : s.Ok callbacks n r) :
    (∃ r, (s.call geometric threadId).Ok callbacks (n + 1) r) ∧
    Forall₂ (fun gap gap' ↦ ∀ k ≤ n, k ∈ partialSums gap ↔ k ∈ partialSums gap') s.gaps
      (s.call geometric threadId).gaps := by
  have hpositive := h.positive
  have hcountdown := h.countdown
  rw [SampledEntry.call, getActiveCallbacksImpl]
  by_cases hlast : s.entry.samplingCountdown - 1 = 0
  · simp only [if_pos hlast]
    have hrows := rows_used h hlast
    obtain ⟨hone, hmax⟩ := countdown_spec (used s.entry)
    obtain ⟨hwaiting, hsums⟩ := rows_redrawTries geometric hrows s.generator hmax
    have hkept : (used s.entry).map Prod.fst = callbacks := by
      rw [used, map_map, ← h.kept]
      rfl
    refine ⟨⟨n + 1, ?_⟩, hsums.imp fun _ _ h k hk ↦ h k (by omega)⟩
    constructor
    · exact (redrawTries_map _ _).trans hkept
    · exact hone
    · exact le_rfl
    · show CacheEntry.countdown (used s.entry) =
        CacheEntry.countdown (used s.entry) - (n + 1 - (n + 1))
      omega
    · exact hwaiting
    · refine (active_of_due hrows).trans ?_
      rw [hkept]
      exact expectedActive_congr (hsums.imp fun _ _ h ↦ h _ le_rfl) callbacks
  · simp only [if_neg hlast]
    refine ⟨⟨r, h.kept, ?_, ?_, ?_, h.rows, h.active⟩, ?_⟩
    · show 1 ≤ s.entry.samplingCountdown - 1
      omega
    · exact Int.le_add_one h.le
    · show s.entry.samplingCountdown - 1 = s.entry.stepsForThisUpdate - (n + 1 - r)
      omega
    · exact forall₂_same.mpr fun _ _ _ _ ↦ Iff.rfl

variable (geometric threadId) in
theorem Ok.calls (h : s.Ok callbacks n r) (m : Nat) :
    ∃ r, (s.calls geometric threadId m).Ok callbacks (n + m) r := by
  induction m with
  | zero => exact ⟨r, by simpa [SampledEntry.calls] using h⟩
  | succ m ih =>
    obtain ⟨r, h⟩ := ih
    rw [SampledEntry.calls, Function.iterate_succ_apply', Int.natCast_succ, ← Int.add_assoc]
    exact h.call.1

end SampledEntry

end Hisab.Profiler.RecordFunctions
