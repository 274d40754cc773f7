import Hisab.Base.Dict
import Hisab.Base.MachineIntegers
import Hisab.Base.StableSort
import Mathlib.Data.Char
import Mathlib.Tactic.Linarith

/-!
# Streaming statistics

`stat` and `stat_with_percentiles` (`stats_calculator.h:53–196`) over any ordered type of values,
with exact sums; what `variance` needs, the sum of the squares, is left out. Then the state of
`stats_calculator` and the calls that change it.
-/

namespace Hisab.Profiler

open Base List

universe u

/-- What `std::numeric_limits` says of a type. -/
structure NumericLimits (V : Type u) where
  min : V
  max : V
  quietNaN : V

/-- `std::numeric_limits<int64_t>`. -/
def NumericLimits.int64 : NumericLimits Int where
  min := -2 ^ 63
  max := 2 ^ 63 - 1
  quietNaN := 0

/-- `stat<ValueType>`. -/
structure Stat (V : Type u) where
  first : V
  newest : V
  max : V
  min : V
  count : Nat
  sum : V
deriving Repr, DecidableEq

variable {V : Type u} [LinearOrder V] [AddCommMonoid V] {limits : NumericLimits V}
  {nth : NthElement V} {values values' : List V} {s : Stat V} {p : Int}

/-- A `stat` on which nothing was called. -/
def Stat.new (limits : NumericLimits V) : Stat V where
  first := 0
  newest := 0
  max := limits.min
  min := limits.max
  count := 0
  sum := 0

namespace Stat

def updateStat (s : Stat V) (v : V) : Stat V where
  first := if s.count = 0 then v else s.first
  newest := v
  max := Max.max v s.max
  min := Min.min v s.min
  count := s.count + 1
  sum := s.sum + v

/-- A statistic that was given the values one after another. -/
def observe (limits : NumericLimits V) (values : List V) : Stat V :=
  values.foldl updateStat (new limits)

theorem observe_append (limits : NumericLimits V) (values : List V) (v : V) :
    observe limits (values ++ [v]) = (observe limits values).updateStat v := by
  rw [observe, foldl_append]
  rfl

@[simp] theorem count_observe (limits : NumericLimits V) (values : List V) :
    (observe limits values).count = values.length := by
  induction values using reverseRecOn with
  | nil => rfl
  | append_singleton values v ih =>
    rw [observe_append, length_append, ← ih]
    rfl

@[simp] theorem sum_observe (limits : NumericLimits V) (values : List V) :
    (observe limits values).sum = values.sum := by
  induction values using reverseRecOn with
  | nil => rfl
  | append_singleton values v ih =>
    rw [observe_append, sum_append, sum_singleton, ← ih]
    rfl

/-- The running maximum takes part with the value it starts from. -/
theorem isGreatest_observe (limits : NumericLimits V) (values : List V) :
    IsGreatest {v | v = limits.min ∨ v ∈ values} (observe limits values).max := by
  induction values using reverseRecOn with
  | nil => simp [observe, new]
  | append_singleton values v ih =>
    rw [observe_append]
    have hset : {w | w = limits.min ∨ w ∈ values ++ [v]} =
        insert v {w | w = limits.min ∨ w ∈ values} := by
      ext w
      simp only [mem_append, mem_singleton, Set.mem_ofPred_eq, Set.mem_insert_iff]
      tauto
    rw [hset]
    exact ih.insert v

theorem isLeast_observe (limits : NumericLimits V) (values : List V) :
    IsLeast {v | v = limits.max ∨ v ∈ values} (observe limits values).min := by
  induction values using reverseRecOn with
  | nil => simp [observe, new]
  | append_singleton values v ih =>
    rw [observe_append]
    have hset : {w | w = limits.max ∨ w ∈ values ++ [v]} =
        insert v {w | w = limits.max ∨ w ∈ values} := by
      ext w
      simp only [mem_append, mem_singleton, Set.mem_ofPred_eq, Set.mem_insert_iff]
      tauto
    rw [hset]
    exact ih.insert v

/-- The running maximum is that of the values when one of them reaches its start. -/
theorem max_iff : IsGreatest {v | v ∈ values} (observe limits values).max ↔
    ∃ v ∈ values, limits.min ≤ v := by
  have h := isGreatest_observe limits values
  constructor
  · intro hmax
    exact ⟨_, hmax.1, h.2 (.inl rfl)⟩
  · rintro ⟨v, hv, hle⟩
    refine ⟨?_, fun w hw ↦ h.2 (.inr hw)⟩
    obtain hmin | hmem := h.1
    · have heq : (observe limits values).max = v := le_antisymm (hmin.le.trans hle) (h.2 (.inr hv))
      exact heq ▸ hv
    · exact hmem

theorem min_iff : IsLeast {v | v ∈ values} (observe limits values).min ↔
    ∃ v ∈ values, v ≤ limits.max := by
  have h := isLeast_observe limits values
  constructor
  · intro hmin
    exact ⟨_, hmin.1, h.2 (.inl rfl)⟩
  · rintro ⟨v, hv, hle⟩
    refine ⟨?_, fun w hw ↦ h.2 (.inr hw)⟩
    obtain hmax | hmem := h.1
    · have heq : (observe limits values).min = v := le_antisymm (h.2 (.inr hv)) (hle.trans hmax.ge)
      exact heq ▸ hv
    · exact hmem

end Stat

/-! ### Percentiles -/

/-- `stat_with_percentiles<ValueType>`. -/
structure StatWithPercentiles (V : Type u) extends Stat V where
  values : List V
deriving Repr, DecidableEq

omit [LinearOrder V] [AddCommMonoid V] in
/-- The place of a percentile below the last is a place of the list. -/
theorem percentile_index_lt (h : values ≠ []) (hp : ¬(p < 0 ∨ 100 < p)) (hlast : p ≠ 100) :
    values.length * p.toNat / 100 < values.length := by
  have hlen := length_pos_iff.mpr h
  have hlt : p.toNat < 100 := by omega
  exact Nat.div_lt_of_lt_mul (by nlinarith)

namespace StatWithPercentiles

def updateStat (s : StatWithPercentiles V) (v : V) : StatWithPercentiles V where
  toStat := s.toStat.updateStat v
  values := s.values ++ [v]

def observe (limits : NumericLimits V) (values : List V) : StatWithPercentiles V :=
  values.foldl updateStat ⟨.new limits, []⟩

/-- The size of a vector in memory times a percentage does not wrap. -/
def percentile (limits : NumericLimits V) (nth : NthElement V) (s : StatWithPercentiles V)
    (p : Int) : V :=
  if hp : p < 0 ∨ 100 < p then limits.quietNaN
  else if h : s.values = [] then limits.quietNaN
  else if hlast : p = 100 then s.values.getLast h
  else (nth.rearrange (s.values.length * p.toNat / 100) s.values).get
    ⟨s.values.length * p.toNat / 100,
      (percentile_index_lt h hp hlast).trans_eq (nth.perm _ s.values).length_eq.symm⟩

theorem observe_eq (limits : NumericLimits V) (values : List V) :
    observe limits values = ⟨.observe limits values, values⟩ := by
  induction values using reverseRecOn with
  | nil => rfl
  | append_singleton values v ih =>
    rw [observe, foldl_append]
    change (observe limits values).updateStat v = _
    rw [ih, updateStat, Stat.observe_append]

/-- Below 100 the percentile is the order statistic. -/
theorem percentile_of_lt (limits : NumericLimits V) (nth : NthElement V) (h : values ≠ [])
    (hp : 0 ≤ p) (hlt : p < 100) :
    (sortBy id values)[values.length * p.toNat / 100]? =
      some ((observe limits values).percentile limits nth p) := by
  rw [observe_eq, percentile, dif_neg (by omega), dif_neg h, dif_neg (by omega),
    ← nth.getElem?_rearrange]
  exact getElem?_eq_getElem _

/-- At 100 it is the value that came last. -/
theorem percentile_top (limits : NumericLimits V) (nth : NthElement V) (h : values ≠ []) :
    (observe limits values).percentile limits nth 100 = values.getLast h := by
  rw [observe_eq, percentile, dif_neg (by omega), dif_neg h, dif_pos rfl]

/-- The statistics of a sequence, by their definitions, and what follows from these. -/
structure Describes (limits : NumericLimits V) (nth : NthElement V) (s : StatWithPercentiles V)
    (values : List V) : Prop where
  count : s.count = values.length
  sum : s.sum = values.sum
  min : IsLeast {v | v ∈ values} s.min
  max : IsGreatest {v | v ∈ values} s.max
  percentile : ∀ p, 0 ≤ p → p < 100 →
    (sortBy id values)[values.length * p.toNat / 100]? = some (s.percentile limits nth p)
  percentile_top : IsGreatest {v | v ∈ values} (s.percentile limits nth 100)
  monotone : ∀ p q, 0 ≤ p → p ≤ q → q ≤ 100 → s.percentile limits nth p ≤ s.percentile limits nth q
  between : ∀ p, 0 ≤ p → p ≤ 100 →
    s.min ≤ s.percentile limits nth p ∧ s.percentile limits nth p ≤ s.max

/-- Every percentile is one of the values. -/
theorem percentile_mem (h : values ≠ []) (hp : 0 ≤ p) (hle : p ≤ 100) :
    (observe limits values).percentile limits nth p ∈ values := by
  obtain hlt | rfl := hle.lt_or_eq
  · have hsome := percentile_of_lt limits nth h hp hlt
    exact (sortBy_perm id values).mem_iff.mp (mem_of_getElem? hsome)
  · rw [percentile_top limits nth h]
    exact getLast_mem h

/-- Below 100 the percentiles increase. -/
theorem percentile_mono {q : Int} (h : values ≠ []) (hp : 0 ≤ p) (hpq : p ≤ q) (hlt : q < 100) :
    (observe limits values).percentile limits nth p ≤
      (observe limits values).percentile limits nth q := by
  have hsome := percentile_of_lt limits nth h hp (hpq.trans_lt hlt)
  have hsome' := percentile_of_lt limits nth h (hp.trans hpq) hlt
  have hle : values.length * p.toNat / 100 ≤ values.length * q.toNat / 100 :=
    Nat.div_le_div_right (Nat.mul_le_mul_left _ (Int.toNat_le_toNat hpq))
  exact NthElement.le_of_sorted hle hsome hsome'

/-- The statistics are right exactly when the greatest value comes last, and the extremes start
on the right sides. -/
theorem describes_iff (h : values ≠ []) : (observe limits values).Describes limits nth values ↔
      (∀ v ∈ values, v ≤ values.getLast h) ∧ (∃ v ∈ values, limits.min ≤ v) ∧
        ∃ v ∈ values, v ≤ limits.max := by
  have htop := percentile_top limits nth h
  constructor
  · intro hd
    have hlast := hd.percentile_top
    have hmin := hd.min
    have hmax := hd.max
    rw [htop] at hlast
    rw [observe_eq] at hmin hmax
    exact ⟨fun v hv ↦ hlast.2 hv, Stat.max_iff.mp hmax, Stat.min_iff.mp hmin⟩
  · rintro ⟨hlast, hmax, hmin⟩
    have hmax := Stat.max_iff.mpr hmax
    have hmin := Stat.min_iff.mpr hmin
    have hmem (p : Int) (hp : 0 ≤ p) (hle : p ≤ 100) :
        (observe limits values).percentile limits nth p ∈ values := percentile_mem h hp hle
    refine ⟨?_, ?_, ?_, ?_, fun p hp hlt ↦ percentile_of_lt limits nth h hp hlt, ?_, ?_, ?_⟩
    · rw [observe_eq, Stat.count_observe]
    · rw [observe_eq, Stat.sum_observe]
    · rw [observe_eq]
      exact hmin
    · rw [observe_eq]
      exact hmax
    · rw [htop]
      exact ⟨getLast_mem h, fun v hv ↦ hlast v hv⟩
    · intro p q hp hpq hq
      obtain hlt | rfl := hq.lt_or_eq
      · exact percentile_mono h hp hpq hlt
      · rw [htop]
        exact hlast _ (hmem p hp hpq)
    · intro p hp hle
      have hmem := hmem p hp hle
      rw [observe_eq] at hmem ⊢
      exact ⟨hmin.2 hmem, hmax.2 hmem⟩

/-- Inserting the values in another order keeps the percentiles when the last value stays. -/
theorem percentile_perm_iff (hperm : values.Perm values') :
    (∀ p, 0 ≤ p → p ≤ 100 → (observe limits values).percentile limits nth p =
      (observe limits values').percentile limits nth p) ↔
      values.getLast? = values'.getLast? := by
  by_cases h : values = []
  · subst h
    obtain rfl := hperm.nil_eq
    simp
  have h' : values' ≠ [] := fun hnil ↦ h (hperm.trans (hnil ▸ .refl _)).eq_nil
  rw [getLast?_eq_some_getLast h, getLast?_eq_some_getLast h', Option.some.injEq]
  constructor
  · intro heq
    have htop := heq 100 (by decide) le_rfl
    rwa [percentile_top limits nth h, percentile_top limits nth h'] at htop
  · intro heq p hp hle
    obtain hlt | rfl := hle.lt_or_eq
    · have hsome := percentile_of_lt limits nth h hp hlt
      have hsome' := percentile_of_lt limits nth h' hp hlt
      rw [NthElement.sort_congr hperm, hperm.length_eq, hsome'] at hsome
      exact (Option.some.inj hsome).symm
    · rw [percentile_top limits nth h, percentile_top limits nth h', heq]

/-- The two conditions at once: on the sequence, and on the order of inserting it. -/
theorem statistics_iff (limits : NumericLimits V) (nth : NthElement V) (values : List V)
    (h : values ≠ []) :
    ((observe limits values).Describes limits nth values ↔
      (∀ v ∈ values, v ≤ values.getLast h) ∧ (∃ v ∈ values, limits.min ≤ v) ∧
        ∃ v ∈ values, v ≤ limits.max) ∧
    ∀ values' : List V, values.Perm values' →
      ((∀ p, 0 ≤ p → p ≤ 100 → (observe limits values).percentile limits nth p =
        (observe limits values').percentile limits nth p) ↔
        values.getLast? = values'.getLast?) :=
  ⟨describes_iff h, fun _ hperm ↦ percentile_perm_iff hperm⟩

theorem statistics_two : ((observe .int64 [-3, 5]).Describes .int64 .sorting [-3, 5] ↔
      (∀ v ∈ [-3, 5], v ≤ (5 : Int)) ∧ (∃ v ∈ [-3, 5], NumericLimits.int64.min ≤ v) ∧
        ∃ v ∈ [-3, 5], v ≤ NumericLimits.int64.max) ∧
    ∀ values' : List Int, [-3, 5].Perm values' →
      ((∀ p, 0 ≤ p → p ≤ 100 → (observe .int64 [-3, 5]).percentile .int64 .sorting p =
        (observe .int64 values').percentile .int64 .sorting p) ↔
        [-3, 5].getLast? = values'.getLast?) :=
  statistics_iff .int64 .sorting [-3, 5] (by decide)

/-- Of the values 5 and 3 in this order the last percentile is 3, below the one before it. -/
theorem last_percentile_is_newest : ¬ (observe .int64 [5, 3]).Describes .int64 .sorting [5, 3] ∧
    (observe .int64 [5, 3]).percentile .int64 .sorting 100 = 3 ∧
    (observe .int64 [5, 3]).percentile .int64 .sorting 99 = 5 := by
  have hsort : sortBy id [(5 : Int), 3] = [3, 5] := NthElement.sort_eq (by decide) (by decide)
  have hbelow : (observe .int64 [5, 3]).percentile .int64 .sorting 99 = 5 := by
    have hsome := percentile_of_lt .int64 .sorting (cons_ne_nil 5 [3]) (by decide : (0 : Int) ≤ 99)
      (by decide)
    rw [hsort] at hsome
    exact (Option.some.inj hsome).symm
  refine ⟨?_, rfl, hbelow⟩
  intro h
  have hmono := h.monotone 99 100 (by decide) (by decide) (by decide)
  rw [hbelow] at hmono
  exact absurd hmono (by decide)

end StatWithPercentiles

/-! ### The calculator -/

/-- `stat_summarizer_options`. -/
structure StatSummarizerOptions where
  showRunOrder : Bool := true
  runOrderLimit : Int := 0
  showTime : Bool := true
  timeLimit : Int := 10
  showMemory : Bool := true
  memoryLimit : Int := 10
  showType : Bool := true
  showSummary : Bool := true
  formatAsCsv : Bool := false
deriving Repr, DecidableEq

/-- `stats_calculator::detail`. -/
structure Detail where
  name : List Char
  type : List Char
  runOrder : I64
  elapsedTime : Stat Int := .new .int64
  memUsed : Stat Int := .new .int64
  timesCalled : Int := 0
deriving DecidableEq

/-- `stats_calculator`. -/
structure StatsCalculator where
  runTotalUs : Stat Int
  memory : Stat Int
  details : List (List Char × Detail)
  options : StatSummarizerOptions
  sorted : SortedMap.Sorted details
  named : ∀ e ∈ details, e.2.name = e.1

namespace StatsCalculator

def new (options : StatSummarizerOptions) : StatsCalculator where
  runTotalUs := .new .int64
  memory := .new .int64
  details := []
  options := options
  sorted := SortedMap.sorted_nil
  named _ h := nomatch h

def updateRunTotalUs (c : StatsCalculator) (runTotalUs : Int) : StatsCalculator :=
  { c with runTotalUs := c.runTotalUs.updateStat runTotalUs }

def updateMemoryUsed (c : StatsCalculator) (memory : Int) : StatsCalculator :=
  { c with memory := c.memory.updateStat memory }

/-- What a call of `add_node_stats` makes of the node, if it is there. -/
def addToNode (name type : List Char) (runOrder : I64) (elapsedTime memUsed : Int)
    (detail? : Option Detail) : Detail :=
  let detail := detail?.getD { name, type, runOrder }
  { detail with
    elapsedTime := detail.elapsedTime.updateStat elapsedTime
    memUsed := detail.memUsed.updateStat memUsed
    timesCalled := detail.timesCalled + 1 }

def addNodeStats (c : StatsCalculator) (name type : List Char) (runOrder : I64)
    (elapsedTime memUsed : Int) : StatsCalculator :=
  { c with
    details := SortedMap.alter (addToNode name type runOrder elapsedTime memUsed) name c.details
    sorted := c.sorted.alter
    named := by
      intro e he
      obtain he | rfl | ⟨detail, hdetail, rfl⟩ := SortedMap.mem_alter he
      · exact c.named e he
      · rfl
      · have hname : detail.name = name := c.named (name, detail) hdetail
        exact hname }

/-- The nodes in the order of their names. -/
def nodes (c : StatsCalculator) : List Detail := c.details.map Prod.snd

/-- Nodes of one name are one node. -/
theorem eq_of_name_eq (c : StatsCalculator) {a b : Detail} (ha : a ∈ c.nodes)
    (hb : b ∈ c.nodes) (h : a.name = b.name) : a = b := by
  obtain ⟨e, he, rfl⟩ := mem_map.mp ha
  obtain ⟨d, hd, rfl⟩ := mem_map.mp hb
  have hkey : e.1 = d.1 := by rw [← c.named e he, ← c.named d hd, h]
  have hlookup := c.sorted.mem_iff.mp (show (e.1, e.2) ∈ c.details from he)
  rw [hkey, c.sorted.mem_iff.mp (show (d.1, d.2) ∈ c.details from hd)] at hlookup
  exact (Option.some.inj hlookup).symm

end StatsCalculator

/-- The calls that change a calculator. -/
inductive StatsCall
  | addNodeStats (name type : List Char) (runOrder : I64) (elapsedTime memUsed : Int)
  | updateRunTotalUs (runTotalUs : Int)
  | updateMemoryUsed (memory : Int)

namespace StatsCalculator

def call (c : StatsCalculator) : StatsCall → StatsCalculator
  | .addNodeStats name type runOrder elapsedTime memUsed =>
    c.addNodeStats name type runOrder elapsedTime memUsed
  | .updateRunTotalUs runTotalUs => c.updateRunTotalUs runTotalUs
  | .updateMemoryUsed memory => c.updateMemoryUsed memory

/-- A calculator after calls in any order. -/
def run (options : StatSummarizerOptions) (calls : List StatsCall) : StatsCalculator :=
  calls.foldl call (new options)

end StatsCalculator

end Hisab.Profiler
