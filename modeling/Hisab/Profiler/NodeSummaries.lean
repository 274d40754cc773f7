import Hisab.Base.Fallible
import Hisab.Profiler.NodeOrder

/-!
# Summaries of the nodes

`compute_stats_by_type`, the tables and `get_output_string` (`stats_calculator.cpp:103–354`): the
rows of the tables without their layout and their percentages, whose divisions are those of
floating-point numbers. A division of integers by zero ends the program.
-/

namespace Hisab.Profiler

open Base List SortedMap

inductive StatsError
  | divisionByZero
deriving Repr, DecidableEq

/-- `a / b` of integers. -/
def divide (a b : Int) : Except StatsError Int :=
  if b = 0 then throw .divisionByZero else pure (a.tdiv b)

/-- What `column_string` writes of a node. -/
structure NodeRow where
  detail : Detail
  cumulativeStatOnNode : Int
  runTotalUs : Int
  timesCalled : Int
deriving DecidableEq

/-- The maps that `compute_stats_by_type` adds to, and the accumulated time. -/
structure TypeStats where
  count : List (List Char × Int) := []
  time : List (List Char × Int) := []
  memory : List (List Char × Int) := []
  timesCalled : List (List Char × Int) := []
  accumulatedUs : Int := 0
deriving DecidableEq

/-- A row of the summary by type. -/
structure TypeRow where
  type : List Char
  count : Int
  time : Int
  memory : Int
  timesCalled : Int
deriving DecidableEq

/-- The parts of the output. -/
inductive OutputSection
  | byMetric (metric : SortingMetric) (rows : List NodeRow)
  | byNodeType (numNodes : Nat) (rows : List TypeRow) (accumulatedUs : Int)
  | summary (runTotalUs memory : Stat Int) (numNodes : Nat)

/-- The queue of the nodes and the queue of the types, whose tops are free among equals, and the
addresses of the nodes. -/
structure OutputChoices where
  nodes : MinQueue Detail (List Char ×ₗ Nat)ᵒᵈ
  types : MinQueue (Int × List Char × Int) (Int ×ₗ List Char ×ₗ Int)ᵒᵈ
  address : List Char ↪ Nat

namespace StatsCalculator

variable {c : StatsCalculator} {choices : OutputChoices} {t : TypeStats} {metric : SortingMetric}

/-- `num_runs()`: the number of runs as an `int`. -/
def numRuns (c : StatsCalculator) : Int := (c.runTotalUs.count : Int).bmod (2 ^ 32)

def columnString (c : StatsCalculator) (detail : Detail) (cumulativeStatOnNode : Int) :
    Except StatsError NodeRow := do
  let timesCalled ← divide detail.timesCalled c.numRuns
  pure ⟨detail, cumulativeStatOnNode, c.runTotalUs.sum, timesCalled⟩

/-- The rows of the shown nodes. The times are added up as `double`s. -/
def nodeRows (c : StatsCalculator) (cumulativeStatOnNode : Int) :
    List Detail → Except StatsError (List NodeRow)
  | [] => pure []
  | detail :: details => do
    let cumulativeStatOnNode :=
      Double.roundInt (cumulativeStatOnNode + Double.roundInt detail.elapsedTime.sum)
    let row ← c.columnString detail cumulativeStatOnNode
    let rows ← c.nodeRows cumulativeStatOnNode details
    pure (row :: rows)

def getStatsByMetric (c : StatsCalculator) (choices : OutputChoices) (metric : SortingMetric)
    (numStats : Int) : Except StatsError (List NodeRow) :=
  c.nodeRows 0 (shownNodes numStats 0 (c.orderNodesByMetric choices.nodes choices.address metric))

/-- `map[type] += x`. -/
def addTo (sums : List (List Char × Int)) (type : List Char) (x : Int) : List (List Char × Int) :=
  SortedMap.alter (fun v? ↦ v?.getD 0 + x) type sums

/-- One round of the loop of `compute_stats_by_type`. -/
def addDetail (runCount : Int) (t : TypeStats) (detail : Detail) : Except StatsError TypeStats := do
  let currTimeVal ← divide detail.elapsedTime.sum runCount
  let timesCalled ← divide detail.timesCalled runCount
  pure {
    count := addTo t.count detail.type 1
    time := addTo t.time detail.type currTimeVal
    memory := addTo t.memory detail.type detail.memUsed.newest
    timesCalled := addTo t.timesCalled detail.type timesCalled
    accumulatedUs := t.accumulatedUs + currTimeVal }

def computeStatsByType (c : StatsCalculator) (t : TypeStats) : Except StatsError TypeStats :=
  c.nodes.foldlM (addDetail c.runTotalUs.count) t

/-- The types with the largest times first. -/
def typeRows (choices : OutputChoices) (t : TypeStats) : List TypeRow :=
  let timings := t.time.map fun entry ↦ (entry.2, entry.1, (t.memory.lookup entry.1).getD 0)
  let key (entry : Int × List Char × Int) : (Int ×ₗ List Char ×ₗ Int)ᵒᵈ :=
    OrderDual.toDual (toLex (entry.1, toLex entry.2))
  (choices.types.drain key timings.length timings).map fun entry ↦
    { type := entry.2.1
      count := (t.count.lookup entry.2.1).getD 0
      time := entry.1
      memory := entry.2.2
      timesCalled := (t.timesCalled.lookup entry.2.1).getD 0 }

def getStatsByNodeType (c : StatsCalculator) (choices : OutputChoices) :
    Except StatsError OutputSection := do
  let t ← c.computeStatsByType {}
  pure (.byNodeType c.nodes.length (typeRows choices t) t.accumulatedUs)

/-- A table, if it is to be shown. -/
def table (c : StatsCalculator) (choices : OutputChoices) (isShown : Bool) (metric : SortingMetric)
    (limit : Int) : Except StatsError (List OutputSection) :=
  if isShown then do
    let rows ← c.getStatsByMetric choices metric limit
    pure [.byMetric metric rows]
  else pure []

def typeTable (c : StatsCalculator) (choices : OutputChoices) :
    Except StatsError (List OutputSection) :=
  if c.options.showType then do
    let types ← c.getStatsByNodeType choices
    pure [types]
  else pure []

def getOutputString (c : StatsCalculator) (choices : OutputChoices) :
    Except StatsError (List OutputSection) := do
  let runOrder ← c.table choices c.options.showRunOrder .byRunOrder c.options.runOrderLimit
  let time ← c.table choices c.options.showTime .byTime c.options.timeLimit
  let memory ← c.table choices c.options.showMemory .byMemory c.options.memoryLimit
  let types ← c.typeTable choices
  pure (runOrder ++ time ++ memory ++ types ++ if c.options.showSummary then
    [.summary c.runTotalUs c.memory c.nodes.length] else [])

/-! ### When the summaries have a result -/

theorem divide_ok {a b : Int} (h : b ≠ 0) : divide a b = .ok (a.tdiv b) := if_neg h

theorem bmod_natCast_eq_zero_iff (n m : Nat) : (n : Int).bmod m = 0 ↔ n % m = 0 := by
  rw [← Int.dvd_iff_bmod_eq_zero, Int.natCast_dvd_natCast, Nat.dvd_iff_mod_eq_zero]

theorem numRuns_eq_zero_iff : c.numRuns = 0 ↔ c.runTotalUs.count % 2 ^ 32 = 0 :=
  bmod_natCast_eq_zero_iff c.runTotalUs.count (2 ^ 32)

/-- A row of any node needs a number of runs that is not zero. -/
theorem nodeRows_ok_iff {cumulative : Int} {l : List Detail} :
    (∃ rows, c.nodeRows cumulative l = .ok rows) ↔ l = [] ∨ c.numRuns ≠ 0 := by
  constructor
  · rintro ⟨rows, h⟩
    cases l with
    | nil => exact .inl rfl
    | cons a l =>
      refine .inr fun hzero ↦ ?_
      rw [nodeRows, columnString, hzero] at h
      cases h
  · rintro (rfl | hruns)
    · exact ⟨[], rfl⟩
    · induction l generalizing cumulative with
      | nil => exact ⟨[], rfl⟩
      | cons a l ih =>
        obtain ⟨rows, hrows⟩ :=
          @ih (Double.roundInt (cumulative + Double.roundInt a.elapsedTime.sum))
        rw [nodeRows, columnString, divide_ok hruns]
        simp only [hrows]
        exact ⟨_, rfl⟩

theorem shownNodes_eq_nil_iff {numStats : Int} {l : List Detail} :
    shownNodes numStats 0 l = [] ↔ l = [] := by
  rw [shownNodes_eq]
  split
  · rw [take_eq_nil_iff, or_iff_right (by omega)]
  · rfl

theorem getStatsByMetric_ok_iff {numStats : Int} :
    (∃ rows, c.getStatsByMetric choices metric numStats = .ok rows) ↔
      c.nodes = [] ∨ c.numRuns ≠ 0 := by
  have hnil : c.orderNodesByMetric choices.nodes choices.address metric = [] ↔ c.nodes = [] := by
    have hperm := c.orderNodesByMetric_perm choices.nodes choices.address metric
    exact ⟨fun h ↦ (h ▸ hperm).nil_eq.symm, fun h ↦ (h ▸ hperm).eq_nil⟩
  rw [getStatsByMetric, nodeRows_ok_iff, shownNodes_eq_nil_iff, hnil]

theorem table_ok_iff {isShown : Bool} {limit : Int} :
    (∃ sections, c.table choices isShown metric limit = .ok sections) ↔
      (isShown = true → c.nodes = [] ∨ c.numRuns ≠ 0) := by
  cases isShown with
  | false => exact iff_of_true ⟨[], rfl⟩ fun h ↦ nomatch h
  | true =>
    rw [forall_prop_of_true rfl, table, if_pos rfl,
      exists_bind_eq_ok fun rows ↦ exists_pure_eq_ok _, and_true, getStatsByMetric_ok_iff]

/-- The sums under the types of the nodes. -/
theorem computeStatsByType_eq (h : c.runTotalUs.count ≠ 0) (t : TypeStats) :
    c.computeStatsByType t = .ok {
      count := SortedMap.addUp Detail.type (fun _ ↦ 1) t.count c.nodes
      time := SortedMap.addUp Detail.type
        (fun d ↦ d.elapsedTime.sum.tdiv c.runTotalUs.count) t.time c.nodes
      memory := SortedMap.addUp Detail.type (fun d ↦ d.memUsed.newest) t.memory c.nodes
      timesCalled := SortedMap.addUp Detail.type
        (fun d ↦ d.timesCalled.tdiv c.runTotalUs.count) t.timesCalled c.nodes
      accumulatedUs := t.accumulatedUs +
        (c.nodes.map fun d ↦ d.elapsedTime.sum.tdiv c.runTotalUs.count).sum } := by
  have hcount : (c.runTotalUs.count : Int) ≠ 0 := by exact_mod_cast h
  rw [computeStatsByType]
  generalize c.nodes = l
  induction l generalizing t with
  | nil =>
    rw [map_nil, sum_nil, Int.add_zero]
    rfl
  | cons d l ih =>
    rw [foldlM_cons, addDetail, divide_ok hcount, divide_ok hcount]
    change foldlM _ _ l = _
    rw [ih, map_cons, sum_cons, ← Int.add_assoc]
    rfl

theorem computeStatsByType_ok_iff : (∃ t', c.computeStatsByType t = .ok t') ↔
    c.nodes = [] ∨ c.runTotalUs.count ≠ 0 := by
  constructor
  · rintro ⟨t', h⟩
    by_contra hor
    obtain ⟨hne, hzero⟩ := not_or.mp hor
    rw [not_not] at hzero
    obtain ⟨d, l, hl⟩ := exists_cons_of_ne_nil hne
    rw [computeStatsByType, hl, hzero] at h
    cases h
  · rintro (hnil | hcount)
    · rw [computeStatsByType, hnil]
      exact ⟨t, rfl⟩
    · exact ⟨_, computeStatsByType_eq hcount t⟩

theorem typeTable_ok_iff : (∃ sections, c.typeTable choices = .ok sections) ↔
    (c.options.showType = true → c.nodes = [] ∨ c.runTotalUs.count ≠ 0) := by
  rw [typeTable]
  split
  · next h =>
    rw [forall_prop_of_true h, exists_bind_eq_ok fun _ ↦ exists_pure_eq_ok _, and_true,
      getStatsByNodeType, exists_bind_eq_ok fun _ ↦ exists_pure_eq_ok _, and_true,
      computeStatsByType_ok_iff]
  · next h => exact iff_of_true ⟨[], rfl⟩ fun hshow ↦ absurd hshow h

/-- Which divisor each part of the output has. -/
theorem getOutputString_ok_iff : (∃ sections, c.getOutputString choices = .ok sections) ↔
    (c.options.showRunOrder = true ∨ c.options.showTime = true ∨ c.options.showMemory = true →
      c.nodes = [] ∨ c.numRuns ≠ 0) ∧
    (c.options.showType = true → c.nodes = [] ∨ c.runTotalUs.count ≠ 0) := by
  have hlast (runOrder time memory : List OutputSection) :=
    exists_bind_eq_ok (x := c.typeTable choices) fun types ↦
      exists_pure_eq_ok (runOrder ++ time ++ memory ++ types ++
        if c.options.showSummary then [.summary c.runTotalUs c.memory c.nodes.length] else [])
  rw [getOutputString, exists_bind_eq_ok fun _ ↦ exists_bind_eq_ok fun _ ↦
    exists_bind_eq_ok fun _ ↦ hlast _ _ _, table_ok_iff, table_ok_iff, table_ok_iff,
    typeTable_ok_iff]
  generalize (c.nodes = [] ∨ c.numRuns ≠ 0) = runs
  generalize (c.nodes = [] ∨ c.runTotalUs.count ≠ 0) = count
  tauto

/-! ### Over any calls -/

/-- Every node is counted under its own type, once, and the sums over the types are the sums over
the nodes. -/
structure Partition (c : StatsCalculator) (t : TypeStats) : Prop where
  sorted : SortedMap.Sorted t.count
  ofType : ∀ type n, (type, n) ∈ t.count ↔
    type ∈ c.nodes.map Detail.type ∧ n = (c.nodes.filter fun d ↦ d.type = type).length
  count : (t.count.map Prod.snd).sum = c.nodes.length
  time : (t.time.map Prod.snd).sum = t.accumulatedUs
  memory : (t.memory.map Prod.snd).sum = (c.nodes.map fun d ↦ d.memUsed.newest).sum

theorem sum_map_one (l : List Detail) : (l.map fun _ ↦ (1 : Int)).sum = l.length := by
  rw [map_const', sum_replicate, nsmul_eq_mul, mul_one]

/-- The maps of the types, started empty, partition the nodes. -/
theorem partition_of_ok (h : c.computeStatsByType {} = .ok t) : Partition c t := by
  obtain hnil | hcount := computeStatsByType_ok_iff.mp ⟨t, h⟩
  · rw [computeStatsByType, hnil] at h
    obtain rfl : {} = t := pure_eq_ok.mp h
    refine ⟨sorted_nil, fun type n ↦ ?_, ?_, rfl, ?_⟩
    · rw [hnil]
      exact iff_of_false not_mem_nil fun h ↦ not_mem_nil h.1
    · rw [hnil]
      rfl
    · rw [hnil]
      rfl
  · rw [computeStatsByType_eq hcount] at h
    cases h
    refine ⟨sorted_nil.fill _ _ _, fun type n ↦ ?_, ?_, ?_, ?_⟩
    · refine (mem_addUp Detail.type (fun _ ↦ 1) c.nodes).trans ?_
      rw [sum_map_one]
      congr!
    · refine (sum_addUp Detail.type (fun _ ↦ 1) [] c.nodes).trans ?_
      rw [sum_map_one]
      exact Int.zero_add _
    · exact sum_addUp ..
    · refine (sum_addUp Detail.type (fun d ↦ d.memUsed.newest) [] c.nodes).trans ?_
      exact Int.zero_add _

end StatsCalculator

namespace StatsCall

def addsNode : StatsCall → Bool
  | addNodeStats .. => true
  | _ => false

def countsRun : StatsCall → Bool
  | updateRunTotalUs _ => true
  | _ => false

end StatsCall

namespace StatsCalculator

theorem run_append (options : StatSummarizerOptions) (calls : List StatsCall) (call : StatsCall) :
    run options (calls ++ [call]) = (run options calls).call call := by
  rw [run, foldl_append]
  rfl

theorem nodes_call_eq_nil_iff (c : StatsCalculator) (call : StatsCall) :
    (c.call call).nodes = [] ↔ c.nodes = [] ∧ call.addsNode = false := by
  cases call with
  | addNodeStats name type runOrder elapsedTime memUsed =>
    refine iff_of_false (fun h ↦ ?_) fun h ↦ nomatch h.2
    have hnil : (c.addNodeStats name type runOrder elapsedTime memUsed).details = [] :=
      map_eq_nil_iff.mp h
    have hmem : name ∈
        (c.addNodeStats name type runOrder elapsedTime memUsed).details.map Prod.fst :=
      mem_keys_alter.mpr (.inl rfl)
    rw [hnil] at hmem
    cases hmem
  | updateRunTotalUs v | updateMemoryUsed v => exact (and_iff_left rfl).symm

/-- There are nodes once one has been added. -/
theorem nodes_run_eq_nil_iff (options : StatSummarizerOptions) (calls : List StatsCall) :
    (run options calls).nodes = [] ↔ ∀ call ∈ calls, call.addsNode = false := by
  induction calls using reverseRecOn with
  | nil => exact iff_of_true rfl fun _ h ↦ nomatch h
  | append_singleton calls call ih =>
    rw [run_append, nodes_call_eq_nil_iff, ih]
    simp [or_imp, forall_and]

theorem count_run (options : StatSummarizerOptions) (calls : List StatsCall) :
    (run options calls).runTotalUs.count = calls.countP StatsCall.countsRun := by
  induction calls using reverseRecOn with
  | nil => rfl
  | append_singleton calls call ih =>
    rw [run_append, countP_append, ← ih]
    cases call with
    | addNodeStats name type runOrder elapsedTime memUsed => rfl
    | updateRunTotalUs v | updateMemoryUsed v => rfl

theorem options_run (options : StatSummarizerOptions) (calls : List StatsCall) :
    (run options calls).options = options := by
  induction calls using reverseRecOn with
  | nil => rfl
  | append_singleton calls call ih =>
    rw [run_append]
    cases call with
    | addNodeStats name type runOrder elapsedTime memUsed => exact ih
    | updateRunTotalUs v | updateMemoryUsed v => exact ih

/-- The output with any options and the statistics by type have a result, and the latter is a
partition of the nodes. -/
structure Summarized (calls : List StatsCall) : Prop where
  output : ∀ options choices, ∃ sections, (run options calls).getOutputString choices = .ok sections
  types : ∀ options, ∃ t, (run options calls).computeStatsByType {} = .ok t ∧
    Partition (run options calls) t

/-- Some addresses of the nodes. -/
def someAddresses : List Char ↪ Nat where
  toFun name := Encodable.encode (name.map Char.toNat)
  inj' := Encodable.encode_injective.comp (List.map_injective_iff.mpr fun _ _ ↦ Char.toNat_inj.mp)

/-- The summaries are total exactly when no node has been added, or the number of runs, as an
`int`, is not zero. -/
theorem summarized_iff (calls : List StatsCall) : Summarized calls ↔
    (∀ call ∈ calls, call.addsNode = false) ∨ calls.countP StatsCall.countsRun % 2 ^ 32 ≠ 0 := by
  have hruns (options : StatSummarizerOptions) : (run options calls).numRuns ≠ 0 ↔
      calls.countP StatsCall.countsRun % 2 ^ 32 ≠ 0 := by
    rw [← count_run options]
    exact numRuns_eq_zero_iff.not
  have hnodes (options : StatSummarizerOptions) := nodes_run_eq_nil_iff options calls
  constructor
  · intro h
    have houtput := getOutputString_ok_iff.mp (h.output {} ⟨.first, .first, someAddresses⟩)
    have hshow : (run {} calls).options.showRunOrder = true := by rw [options_run]
    have hor := houtput.1 (.inl hshow)
    rwa [hnodes, hruns] at hor
  · intro h
    have hcount (options : StatSummarizerOptions) :
        (run options calls).nodes = [] ∨ (run options calls).runTotalUs.count ≠ 0 := by
      rw [hnodes, count_run]
      exact h.imp_right fun hmod hzero ↦ hmod (by rw [hzero, Nat.zero_mod])
    refine ⟨fun options choices ↦ ?_, fun options ↦ ?_⟩
    · refine getOutputString_ok_iff.mpr ⟨fun _ ↦ ?_, fun _ ↦ hcount options⟩
      rwa [hnodes, hruns]
    · obtain ⟨t, ht⟩ := computeStatsByType_ok_iff.mpr (hcount options)
      exact ⟨t, ht, partition_of_ok ht⟩

/-- A node and no run. -/
theorem no_run_divides_by_zero : ¬ Summarized [.addNodeStats ['n'] ['t'] 0 5 0] ∧
    (run {} [.addNodeStats ['n'] ['t'] 0 5 0]).computeStatsByType {} = .error .divisionByZero ∧
    ¬ ∃ choices sections,
      (run {} [.addNodeStats ['n'] ['t'] 0 5 0]).getOutputString choices = .ok sections := by
  refine ⟨fun h ↦ ?_, rfl, ?_⟩
  · obtain ⟨t, ht, -⟩ := h.types {}
    cases ht
  · rintro ⟨choices, h⟩
    exact absurd ((getOutputString_ok_iff.mp h).2 rfl) (by decide)

end StatsCalculator
end Hisab.Profiler
