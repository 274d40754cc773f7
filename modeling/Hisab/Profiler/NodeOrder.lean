import Hisab.Base.FixedPoint
import Hisab.Profiler.StatsCalculator


/-!
# The order of the nodes

`order_nodes_by_metric` (`stats_calculator.cpp:136–180`) sorts the nodes by texts: it is right
exactly when the texts of the metric compare as the metric.
-/

namespace Hisab.Profiler

open Base

namespace Stat

/-- `avg()`: without a value the quiet NaN of `int64_t`, which is zero. -/
def avg (s : Stat Int) : Double :=
  if s.count = 0 then .ofRatio NumericLimits.int64.quietNaN 1
  else .ofRatio (Double.roundInt s.sum) (Double.roundInt s.count).toNat

/-- The average without rounding. -/
def exactAvg (s : Stat Int) : ℚ := s.sum / s.count

theorem fixedText_avg (places : Nat) (s : Stat Int) :
    s.avg.fixedText places = (s.avg.fixed places).text places := by
  rw [avg]
  split
  · exact Double.fixedText_ofRatio ..
  · exact Double.fixedText_ofRatio ..

end Stat

/-- `sorting_metric_enum`. -/
inductive SortingMetric
  | byName
  | byRunOrder
  | byTime
  | byMemory
  | byType
deriving Repr, DecidableEq

/-- The text that a node is sorted by, `numNodes - run_order` as a `size_t`. -/
def Detail.text (numNodes : Nat) (metric : SortingMetric) (detail : Detail) : List Char :=
  padLeft ' ' 20 <| match metric with
    | .byName => detail.name
    | .byRunOrder => Nat.toDigits 10 (SizeT.sub numNodes detail.runOrder.toSizeT)
    | .byTime => detail.elapsedTime.avg.fixedText 10
    | .byMemory => detail.memUsed.avg.fixedText 10
    | .byType => detail.type

/-- The pair of the text and the address; the queue has the greatest pair on top. -/
def Detail.key (address : List Char ↪ Nat) (numNodes : Nat) (metric : SortingMetric)
    (detail : Detail) : (List Char ×ₗ Nat)ᵒᵈ :=
  OrderDual.toDual (toLex (detail.text numNodes metric, address detail.name))

/-- The loop over the sorted nodes: how many are shown. -/
def shownNodes (numStats : Int) : Int → List Detail → List Detail
  | _, [] => []
  | statNum, detail :: details =>
    let statNum := statNum + 1
    if 0 < numStats ∧ numStats < statNum then []
    else detail :: shownNodes numStats statNum details

/-- Of two nodes the first has to come first: an average that is larger by one unit, or a smaller
place in the run. -/
def Detail.Before : SortingMetric → Detail → Detail → Prop
  | .byTime, a, b => b.elapsedTime.exactAvg + 1 ≤ a.elapsedTime.exactAvg
  | .byMemory, a, b => b.memUsed.exactAvg + 1 ≤ a.memUsed.exactAvg
  | .byRunOrder, a, b => a.runOrder.val < b.runOrder.val
  | _, _, _ => False

variable {l : List Detail} {a b : Detail} {metric : SortingMetric} {address : List Char ↪ Nat}
  {n : Nat}

theorem shownNodes_eq (numStats statNum : Int) (l : List Detail) : shownNodes numStats statNum l =
      if 0 < numStats then l.take (numStats - statNum).toNat else l := by
  induction l generalizing statNum with
  | nil => simp [shownNodes]
  | cons a l ih =>
    rw [shownNodes, ih]
    by_cases hn : 0 < numStats
    · split
      · next h => rw [show (numStats - statNum).toNat = 0 by omega, List.take_zero]
      · next h =>
        rw [show (numStats - statNum).toNat = (numStats - (statNum + 1)).toNat + 1 by omega,
          List.take_succ_cons]
    · rw [if_neg hn, if_neg hn, if_neg fun h ↦ hn h.1]

namespace Detail

theorem Before.irrefl (metric : SortingMetric) (a : Detail) : ¬ Before metric a a := by
  cases metric with
  | byName => exact id
  | byRunOrder => exact lt_irrefl _
  | byTime | byMemory => exact (lt_add_one _).not_ge
  | byType => exact id

/-- A node is above another one in the queue by its text, or of equal texts by its address. -/
theorem key_lt_iff : a.key address n metric < b.key address n metric ↔
    b.text n metric < a.text n metric ∨
      b.text n metric = a.text n metric ∧ address b.name < address a.name := by
  rw [key, key, OrderDual.toDual_lt_toDual, Prod.Lex.toLex_lt_toLex]

/-- A node of an average is above another one. -/
def AvgAbove (address : List Char ↪ Nat) (f : Detail → Stat Int) (a b : Detail) : Prop :=
  ((f b).avg.fixed 10).TextBelow 10 9 ((f a).avg.fixed 10) ∨
    ¬ ((f a).avg.fixed 10).TextBelow 10 9 ((f b).avg.fixed 10) ∧ address b.name < address a.name

theorem avg_text_lt_iff (s t : Stat Int) :
    padLeft ' ' 20 (s.avg.fixedText 10) < padLeft ' ' 20 (t.avg.fixedText 10) ↔
      (s.avg.fixed 10).TextBelow 10 9 (t.avg.fixed 10) := by
  rw [Stat.fixedText_avg, Stat.fixedText_avg]
  exact FixedPoint.padLeft_text_lt_iff (by decide : 0 < 10) 9

/-- Texts are equal when neither is below the other. -/
theorem avgAbove_iff (f : Detail → Stat Int) : AvgAbove address f a b ↔
    padLeft ' ' 20 ((f b).avg.fixedText 10) < padLeft ' ' 20 ((f a).avg.fixedText 10) ∨
      padLeft ' ' 20 ((f b).avg.fixedText 10) = padLeft ' ' 20 ((f a).avg.fixedText 10) ∧
        address b.name < address a.name := by
  rw [AvgAbove, ← avg_text_lt_iff, ← avg_text_lt_iff]
  obtain hlt | heq | hlt := lt_trichotomy (padLeft ' ' 20 ((f b).avg.fixedText 10))
    (padLeft ' ' 20 ((f a).avg.fixedText 10))
  · simp [hlt]
  · simp [heq]
  · simp [hlt, hlt.ne']

/-- What the place in the run leaves of the number of nodes, modulo 2 ^ 64. -/
theorem sub_runOrder (n : Nat) (r : I64) : (SizeT.sub n r.toSizeT : Int) =
    (I64.ofSizeT n).val - r.val + if r.val ≤ (I64.ofSizeT n).val then 0 else 2 ^ 64 := by
  have hlower := r.lower
  have hupper := r.upper
  simp only [SizeT.sub, SizeT.modulus, I64.toSizeT, I64.ofSizeT]
  split
  · split
    · omega
    · omega
  · split
    · omega
    · omega

theorem runOrder_text_lt_iff : a.text n .byRunOrder < b.text n .byRunOrder ↔
    SizeT.sub n a.runOrder.toSizeT < SizeT.sub n b.runOrder.toSizeT := by
  have hlt (d : Detail) : SizeT.sub n d.runOrder.toSizeT < 10 ^ 20 :=
    (SizeT.sub_lt n _).trans (by decide)
  exact padLeft_toDigits_lt_iff (hlt a) (hlt b) (by decide)

/-- Where the number of nodes lies between the places of two nodes, the later one is above. -/
theorem runOrder_key_lt_iff (address : List Char ↪ Nat) (n : Nat)
    (h : a.runOrder.val < b.runOrder.val) :
    a.key address n .byRunOrder < b.key address n .byRunOrder ↔
      ¬ (a.runOrder.val ≤ (I64.ofSizeT n).val ∧ (I64.ofSizeT n).val < b.runOrder.val) := by
  have ha := sub_runOrder n a.runOrder
  have hb := sub_runOrder n b.runOrder
  have hal := a.runOrder.lower
  have hbu := b.runOrder.upper
  have htext : b.text n .byRunOrder ≠ a.text n .byRunOrder := by
    intro heq
    have hba : ¬ b.text n .byRunOrder < a.text n .byRunOrder := heq ▸ lt_irrefl _
    have hab : ¬ a.text n .byRunOrder < b.text n .byRunOrder := heq ▸ lt_irrefl _
    rw [runOrder_text_lt_iff] at hba hab
    omega
  rw [key_lt_iff, runOrder_text_lt_iff, or_iff_left fun h ↦ htext h.1]
  split at ha <;> split at hb <;> omega

end Detail

namespace StatsCalculator

variable {c : StatsCalculator} {queue : MinQueue Detail (List Char ×ₗ Nat)ᵒᵈ}

/-- `order_nodes_by_metric`, where the nodes have any addresses. -/
def orderNodesByMetric (c : StatsCalculator) (queue : MinQueue Detail (List Char ×ₗ Nat)ᵒᵈ)
    (address : List Char ↪ Nat) (metric : SortingMetric) : List Detail :=
  queue.drain (Detail.key address c.nodes.length metric) c.nodes.length c.nodes

/-- No node comes too late, and what is shown of the nodes goes before what is not. -/
structure Ordered (c : StatsCalculator) (ordered : List Detail) (metric : SortingMetric) :
    Prop where
  perm : ordered.Perm c.nodes
  follows : ordered.Pairwise fun a b ↦ ¬ Detail.Before metric b a
  top : ∀ k : Int, 0 < k → ∀ a ∈ shownNodes k 0 ordered, ∀ b ∈ ordered.drop k.toNat,
    ¬ Detail.Before metric b a

/-- The texts compare as the metric: for averages node by node, for the places in the run when the
number of nodes, as an `int64_t`, is below all or none of them. -/
def TextsAgree (c : StatsCalculator) (address : List Char ↪ Nat) : SortingMetric → Prop
  | .byTime => ∀ a ∈ c.nodes, ∀ b ∈ c.nodes, Detail.Before .byTime a b →
      Detail.AvgAbove address Detail.elapsedTime a b
  | .byMemory => ∀ a ∈ c.nodes, ∀ b ∈ c.nodes, Detail.Before .byMemory a b →
      Detail.AvgAbove address Detail.memUsed a b
  | .byRunOrder => (∀ a ∈ c.nodes, a.runOrder.val ≤ (I64.ofSizeT c.nodes.length).val) ∨
      ∀ a ∈ c.nodes, (I64.ofSizeT c.nodes.length).val < a.runOrder.val
  | _ => True

/-- Every node once, whatever the metric. -/
theorem orderNodesByMetric_perm (c : StatsCalculator)
    (queue : MinQueue Detail (List Char ×ₗ Nat)ᵒᵈ) (address : List Char ↪ Nat)
    (metric : SortingMetric) : (c.orderNodesByMetric queue address metric).Perm c.nodes :=
  queue.perm_drain le_rfl

theorem key_inj (ha : a ∈ c.nodes) (hb : b ∈ c.nodes)
    (h : a.key address n metric = b.key address n metric) : a = b := by
  have hpair : (a.text n metric, address a.name) = (b.text n metric, address b.name) := h
  exact c.eq_of_name_eq ha hb (address.injective (Prod.mk.inj hpair).2)

/-- The order is right exactly when the keys agree with the metric. -/
theorem ordered_iff_keys : c.Ordered (c.orderNodesByMetric queue address metric) metric ↔
    ∀ a ∈ c.nodes, ∀ b ∈ c.nodes, Detail.Before metric a b →
      a.key address c.nodes.length metric < b.key address c.nodes.length metric := by
  have hperm := c.orderNodesByMetric_perm queue address metric
  have hsorted := queue.pairwise_drain (Detail.key address c.nodes.length metric) c.nodes.length
    c.nodes
  have hiff := pairwise_not_before_iff hsorted (fun a ha b hb h ↦
    key_inj (hperm.mem_iff.mp ha) (hperm.mem_iff.mp hb) h) (Detail.Before.irrefl metric)
  constructor
  · intro h a ha b hb hab
    exact hiff.mp h.follows a (hperm.mem_iff.mpr ha) b (hperm.mem_iff.mpr hb) hab
  · intro h
    have hfollows := hiff.mpr fun a ha b hb hab ↦
      h a (hperm.mem_iff.mp ha) b (hperm.mem_iff.mp hb) hab
    refine ⟨hperm, hfollows, fun k hk a ha b hb ↦ ?_⟩
    rw [shownNodes_eq, if_pos hk, Int.sub_zero] at ha
    exact pairwise_iff_take_drop.mp hfollows k.toNat (by omega) a ha b hb

/-- What the keys have to do for each metric, in numbers. -/
theorem textsAgree_iff : c.TextsAgree address metric ↔
    ∀ a ∈ c.nodes, ∀ b ∈ c.nodes, Detail.Before metric a b →
      a.key address c.nodes.length metric < b.key address c.nodes.length metric := by
  cases metric with
  | byName | byType => exact iff_of_true trivial fun _ _ _ _ h ↦ h.elim
  | byTime | byMemory =>
    refine forall₅_congr fun a _ b _ _ ↦ ?_
    rw [Detail.key_lt_iff]
    exact Detail.avgAbove_iff _
  | byRunOrder =>
    have hkey (a b : Detail) (h : Detail.Before .byRunOrder a b) :=
      Detail.runOrder_key_lt_iff address c.nodes.length h
    constructor
    · rintro h a ha b hb hab
      rw [hkey a b hab]
      rintro ⟨hle, hlt⟩
      obtain h | h := h
      · exact (h b hb).not_gt hlt
      · exact (h a ha).not_ge hle
    · intro h
      by_contra hor
      obtain ⟨hall, hnone⟩ := not_or.mp hor
      simp only [not_forall, not_le, not_lt] at hall hnone
      obtain ⟨b, hb, hlt⟩ := hall
      obtain ⟨a, ha, hle⟩ := hnone
      have hab : Detail.Before .byRunOrder a b := hle.trans_lt hlt
      exact (hkey a b hab).mp (h a ha b hb hab) ⟨hle, hlt⟩

/-- Every metric gives every node once, and the right order exactly when its texts agree. -/
theorem orderNodes_iff (c : StatsCalculator) (queue : MinQueue Detail (List Char ×ₗ Nat)ᵒᵈ)
    (address : List Char ↪ Nat) (metric : SortingMetric) :
    (c.orderNodesByMetric queue address metric).Perm c.nodes ∧
      (c.Ordered (c.orderNodesByMetric queue address metric) metric ↔
        c.TextsAgree address metric) :=
  ⟨c.orderNodesByMetric_perm queue address metric, ordered_iff_keys.trans textsAgree_iff.symm⟩

/-- Two nodes with times on both sides of 10 ^ 9 microseconds. -/
def slowNodes : StatsCalculator :=
  run {} [.addNodeStats ['a'] ['t'] 0 999999999 0, .addNodeStats ['b'] ['t'] 1 1000000000 0]

/-- A node that is called three times before another one is. -/
def repeatedNode : StatsCalculator :=
  run {} [.addNodeStats ['a'] ['t'] 0 7 0, .addNodeStats ['a'] ['t'] 1 7 0,
    .addNodeStats ['a'] ['t'] ⟨2, by decide, by decide⟩ 7 0,
    .addNodeStats ['b'] ['t'] ⟨3, by decide, by decide⟩ 5 0]

/-- The slower node has the smaller text, and the later node the larger difference. -/
theorem texts_misorder : (¬ ∃ queue address,
      slowNodes.Ordered (slowNodes.orderNodesByMetric queue address .byTime) .byTime) ∧
    ¬ ∃ queue address,
      repeatedNode.Ordered (repeatedNode.orderNodesByMetric queue address .byRunOrder)
        .byRunOrder := by
  constructor
  · rintro ⟨queue, address, h⟩
    rw [ordered_iff_keys, ← textsAgree_iff] at h
    let fast := slowNodes.nodes.get ⟨0, by decide⟩
    let slow := slowNodes.nodes.get ⟨1, by decide⟩
    have hbefore : Detail.Before .byTime slow fast := by
      change fast.elapsedTime.exactAvg + 1 ≤ slow.elapsedTime.exactAvg
      decide +kernel
    have habove := h slow (List.get_mem ..) fast (List.get_mem ..) hbefore
    have hbelow : ((slow.elapsedTime).avg.fixed 10).TextBelow 10 9
        ((fast.elapsedTime).avg.fixed 10) := by decide +kernel
    have hnot : ¬ ((fast.elapsedTime).avg.fixed 10).TextBelow 10 9
        ((slow.elapsedTime).avg.fixed 10) := by decide +kernel
    exact habove.elim hnot fun h ↦ h.1 hbelow
  · rintro ⟨queue, address, h⟩
    rw [ordered_iff_keys, ← textsAgree_iff] at h
    revert h
    change ¬ (_ ∨ _)
    decide +kernel

end StatsCalculator
end Hisab.Profiler
