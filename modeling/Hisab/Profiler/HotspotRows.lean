import Hisab.Base.MachineIntegers
import Hisab.Profiler.ScopeTree

/-!
# The hotspot report

`hotspot_report` of `Library/Profiler/native/analysis/hotspot_report.cpp`: the times of the scope
tree by name. A `std::unordered_map` is the list of its values.
-/

namespace Hisab.Profiler

open Base

/-- `hotspot_entry`. -/
structure HotspotEntry where
  name : List Char
  selfTimeNs : Nat := 0
  totalTimeNs : Nat := 0
  callCount : Nat := 0
  deriving DecidableEq, Repr

/-- `hotspots` and `call_stacks`. -/
structure HotspotMaps where
  hotspots : List HotspotEntry := []
  callStacks : List (List Char × List (List Char)) := []
  deriving DecidableEq, Repr

/-- `kSyntheticRootName`. -/
def syntheticRootName : List Char := "ROOT".toList

/-- `get_duration_ns`, a `double`, back as a `uint64_t`, and zero if it is not positive. -/
def nodeTotalNs (node : ScopeData) : Nat :=
  (Double.roundInt (node.event.endNs - node.event.startNs)).toNat

/-- `children_total_ns`. -/
def childrenTotalNs (children : Forest ScopeData) : Nat :=
  (children.tops.map nodeTotalNs).foldl (fun sum total ↦ (sum + total) % SizeT.modulus) 0

/-- The self time of a node. -/
def selfNs (node : ScopeData) (children : Forest ScopeData) : Nat :=
  nodeTotalNs node - childrenTotalNs children

/-- `hotspots[name]` and what is added to it. -/
def addHotspot (name : List Char) (selfNs totalNs : Nat) : List HotspotEntry → List HotspotEntry
  | [] => [{ name, selfTimeNs := selfNs, totalTimeNs := totalNs, callCount := 1 }]
  | entry :: entries =>
    if entry.name = name then
      { entry with
        callCount := entry.callCount + 1
        selfTimeNs := (entry.selfTimeNs + selfNs) % SizeT.modulus
        totalTimeNs := (entry.totalTimeNs + totalNs) % SizeT.modulus } :: entries
    else entry :: addHotspot name selfNs totalNs entries

/-- What `accumulate` does for a node that is not the synthetic root, before its children. -/
def HotspotMaps.add (maps : HotspotMaps) (node : ScopeData) (children : Forest ScopeData)
    (path : List (List Char)) : HotspotMaps where
  hotspots := addHotspot node.event.name (selfNs node children) (nodeTotalNs node) maps.hotspots
  callStacks :=
    if maps.callStacks.any fun entry ↦ entry.1 = node.event.name then maps.callStacks
    else maps.callStacks ++ [(node.event.name, path)]

/-- `accumulate`, `hotspot_report.cpp:58–94`, for nodes side by side. -/
def accumulate (path : List (List Char)) (maps : HotspotMaps) : Forest ScopeData → HotspotMaps
  | .nil => maps
  | .node node children siblings =>
    let below :=
      if node.event.name = syntheticRootName then accumulate path maps children
      else
        let path := path ++ [node.event.name]
        accumulate path (maps.add node children path) children
    accumulate path below siblings

/-- `hotspots_` of a `hotspot_report`, by self time. -/
def hotspots (root : Option ScopeTree) : List HotspotEntry :=
  match root with
  | none => []
  | some tree =>
    (accumulate [] {} (.node tree.root tree.children .nil)).hotspots.mergeSort
      fun a b ↦ decide (b.selfTimeNs ≤ a.selfTimeNs)

end Hisab.Profiler

/-!
## The rows of the hotspot report

What the nodes of a tree add to the rows, one after another, and what the rows then hold.
-/

namespace Hisab.Profiler

open Base

/-- The nodes that are not skipped as the synthetic root, in preorder, with their self times. -/
def records : Forest ScopeData → List (ScopeData × Nat)
  | .nil => []
  | .node node children siblings =>
    (if node.event.name = syntheticRootName then [] else [(node, selfNs node children)]) ++
      records children ++ records siblings

/-- A record is added to the rows. -/
def addRecord (rows : List HotspotEntry) (r : ScopeData × Nat) : List HotspotEntry :=
  addHotspot r.1.event.name r.2 (nodeTotalNs r.1) rows

section Rows

variable {name : List Char} {self total : Nat} {rows : List HotspotEntry}
  {recs : List (ScopeData × Nat)} {r : ScopeData × Nat}

/-- The rows of a tree come from its records. -/
theorem accumulate_hotspots (path : List (List Char)) (maps : HotspotMaps)
    (forest : Forest ScopeData) :
    (accumulate path maps forest).hotspots = (records forest).foldl addRecord maps.hotspots := by
  induction forest generalizing path maps with
  | nil => rfl
  | node node children siblings ihc ihs =>
    rw [accumulate, ihs, records, List.foldl_append]
    split
    next => rw [ihc]; rfl
    next => rw [ihc]; rfl

/-- A row is changed or a new one is made. -/
theorem addHotspot_cases (name : List Char) (self total : Nat) (rows : List HotspotEntry) :
    (∃ front row back, rows = front ++ row :: back ∧ row.name = name ∧
      addHotspot name self total rows = front ++ { row with
          callCount := row.callCount + 1
          selfTimeNs := (row.selfTimeNs + self) % SizeT.modulus
          totalTimeNs := (row.totalTimeNs + total) % SizeT.modulus } :: back) ∨
    ((∀ row ∈ rows, row.name ≠ name) ∧ addHotspot name self total rows = rows ++
      [{ name, selfTimeNs := self, totalTimeNs := total, callCount := 1 }]) := by
  induction rows with
  | nil => exact .inr ⟨nofun, rfl⟩
  | cons row rows ih =>
    rw [addHotspot]
    split
    next hname => exact .inl ⟨[], row, rows, rfl, hname, rfl⟩
    next hname =>
      obtain ⟨front, row', back, rfl, hrow, hadd⟩ | ⟨hnone, hadd⟩ := ih
      · exact .inl ⟨row :: front, row', back, rfl, hrow, by rw [hadd]; rfl⟩
      · refine .inr ⟨fun row' hrow ↦ ?_, by rw [hadd]; rfl⟩
        obtain rfl | hrow := List.mem_cons.mp hrow
        · exact hname
        · exact hnone row' hrow

theorem callCounts_addRecord (rows : List HotspotEntry) (r : ScopeData × Nat) :
    ((addRecord rows r).map HotspotEntry.callCount).sum =
      (rows.map HotspotEntry.callCount).sum + 1 := by
  rw [addRecord]
  obtain ⟨front, row, back, rfl, -, hadd⟩ | ⟨-, hadd⟩ :=
    addHotspot_cases r.1.event.name r.2 (nodeTotalNs r.1) rows
  · rw [hadd]
    simp only [List.map_append, List.map_cons, List.sum_append, List.sum_cons]
    omega
  · rw [hadd]
    simp

/-- The calls are the nodes that are not skipped. -/
theorem callCounts_foldl (recs : List (ScopeData × Nat)) (rows : List HotspotEntry) :
    ((recs.foldl addRecord rows).map HotspotEntry.callCount).sum =
      (rows.map HotspotEntry.callCount).sum + recs.length := by
  induction recs generalizing rows with
  | nil => rfl
  | cons r recs ih =>
    rw [List.foldl_cons, ih, callCounts_addRecord, List.length_cons]
    omega

/-- The records of a name. -/
def named (name : List Char) (recs : List (ScopeData × Nat)) : List (ScopeData × Nat) :=
  recs.filter fun r ↦ decide (r.1.event.name = name)

/-- The total time of records. -/
def totalNs (recs : List (ScopeData × Nat)) : Nat := (recs.map fun r ↦ nodeTotalNs r.1).sum

/-- The self time of records. -/
def selfTotalNs (recs : List (ScopeData × Nat)) : Nat := (recs.map Prod.snd).sum

/-- What the rows hold of the records added to them. -/
structure Summary (recs : List (ScopeData × Nat)) (rows : List HotspotEntry) : Prop where
  nodup : (rows.map HotspotEntry.name).Nodup
  names : ∀ r ∈ recs, ∃ row ∈ rows, row.name = r.1.event.name
  totals : ∀ row ∈ rows, row.totalTimeNs = totalNs (named row.name recs)
  selfs : ∀ row ∈ rows, row.selfTimeNs = selfTotalNs (named row.name recs)
  selfTimes : (rows.map HotspotEntry.selfTimeNs).sum = selfTotalNs recs

theorem totalNs_eq (recs : List (ScopeData × Nat)) :
    totalNs recs = ((recs.map Prod.fst).map nodeTotalNs).sum := by
  rw [List.map_map]
  rfl

theorem totalNs_append (recs recs' : List (ScopeData × Nat)) :
    totalNs (recs ++ recs') = totalNs recs + totalNs recs' := by
  simp [totalNs]

theorem selfTotalNs_append (recs recs' : List (ScopeData × Nat)) :
    selfTotalNs (recs ++ recs') = selfTotalNs recs + selfTotalNs recs' := by
  simp [selfTotalNs]

theorem totalNs_named_le (name : List Char) (recs : List (ScopeData × Nat)) :
    totalNs (named name recs) ≤ totalNs recs :=
  (List.filter_sublist.map _).sum_le_sum (by simp)

theorem selfTotalNs_named_le (name : List Char) (h : ∀ r ∈ recs, r.2 ≤ nodeTotalNs r.1) :
    selfTotalNs (named name recs) ≤ totalNs (named name recs) :=
  List.sum_le_sum fun r hr ↦ h r (List.mem_of_mem_filter hr)

theorem named_append_of_eq (h : r.1.event.name = name) :
    named name (recs ++ [r]) = named name recs ++ [r] := by
  simp [named, h]

theorem named_append_of_ne (h : r.1.event.name ≠ name) :
    named name (recs ++ [r]) = named name recs := by
  simp [named, h]

/-- The row of a name that a record is added to. -/
theorem Summary.add_row (h : Summary recs rows) (row : HotspotEntry) (hrow : row ∈ rows)
    (hname : row.name = r.1.event.name) (hle : ∀ r' ∈ recs ++ [r], r'.2 ≤ nodeTotalNs r'.1)
    (hlt : totalNs (recs ++ [r]) < SizeT.modulus) :
    (row.totalTimeNs + nodeTotalNs r.1) % SizeT.modulus = totalNs (named row.name (recs ++ [r])) ∧
      (row.selfTimeNs + r.2) % SizeT.modulus = selfTotalNs (named row.name (recs ++ [r])) ∧
      selfTotalNs (named row.name (recs ++ [r])) = row.selfTimeNs + r.2 := by
  have htotal : row.totalTimeNs + nodeTotalNs r.1 = totalNs (named row.name (recs ++ [r])) := by
    rw [named_append_of_eq hname.symm, h.totals row hrow]
    simp [totalNs]
  have hself : row.selfTimeNs + r.2 = selfTotalNs (named row.name (recs ++ [r])) := by
    rw [named_append_of_eq hname.symm, h.selfs row hrow]
    simp [selfTotalNs]
  have hbound := (totalNs_named_le row.name (recs ++ [r])).trans_lt hlt
  rw [htotal, hself]
  exact ⟨Nat.mod_eq_of_lt hbound,
    Nat.mod_eq_of_lt ((selfTotalNs_named_le row.name hle).trans_lt hbound), rfl⟩

/-- One more record. -/
theorem Summary.add (h : Summary recs rows) (hle : ∀ r' ∈ recs ++ [r], r'.2 ≤ nodeTotalNs r'.1)
    (hlt : totalNs (recs ++ [r]) < SizeT.modulus) : Summary (recs ++ [r]) (addRecord rows r) := by
  have hother : ∀ row ∈ rows, row.name ≠ r.1.event.name →
      row.totalTimeNs = totalNs (named row.name (recs ++ [r])) ∧
        row.selfTimeNs = selfTotalNs (named row.name (recs ++ [r])) := by
    intro row hrow hne
    rw [named_append_of_ne hne.symm]
    exact ⟨h.totals row hrow, h.selfs row hrow⟩
  have hselfs : selfTotalNs (recs ++ [r]) = selfTotalNs recs + r.2 := by simp [selfTotalNs]
  rw [addRecord]
  obtain ⟨front, row, back, hsplit, hname, hadd⟩ | ⟨hnone, hadd⟩ :=
    addHotspot_cases r.1.event.name r.2 (nodeTotalNs r.1) rows
  · subst hsplit
    obtain ⟨htotal, hself, hsum⟩ := h.add_row row (by simp) hname hle hlt
    have hnodup := h.nodup
    have htimes := h.selfTimes
    simp only [List.map_append] at hnodup htimes
    have hne : ∀ row' ∈ front ++ back, row'.name ≠ r.1.event.name := by
      intro row' hrow' heq
      have hdisjoint := (List.nodup_middle.mp hnodup)
      rw [← List.map_append] at hdisjoint
      refine (List.nodup_cons.mp hdisjoint).1 ?_
      rw [hname, ← heq]
      exact List.mem_map_of_mem hrow'
    rw [hadd, htotal, hself]
    refine ⟨by simpa using hnodup, fun r' hr' ↦ ?_, fun row' hrow' ↦ ?_, fun row' hrow' ↦ ?_, ?_⟩
    · have hold : ∃ row' ∈ front ++ row :: back, row'.name = r'.1.event.name := by
        obtain hr' | hr' := List.mem_append.mp hr'
        · exact h.names r' hr'
        · obtain rfl := List.mem_singleton.mp hr'
          exact ⟨row, by simp, hname⟩
      obtain ⟨row', hrow', heq⟩ := hold
      simp only [List.mem_append, List.mem_cons] at hrow' ⊢
      obtain hf | rfl | hb := hrow'
      · exact ⟨row', .inl hf, heq⟩
      · exact ⟨_, .inr (.inl rfl), heq⟩
      · exact ⟨row', .inr (.inr hb), heq⟩
    · simp only [List.mem_append, List.mem_cons] at hrow'
      obtain hf | rfl | hb := hrow'
      · exact (hother row' (by simp [hf]) (hne row' (by simp [hf]))).1
      · rfl
      · exact (hother row' (by simp [hb]) (hne row' (by simp [hb]))).1
    · simp only [List.mem_append, List.mem_cons] at hrow'
      obtain hf | rfl | hb := hrow'
      · exact (hother row' (by simp [hf]) (hne row' (by simp [hf]))).2
      · rfl
      · exact (hother row' (by simp [hb]) (hne row' (by simp [hb]))).2
    · rw [hselfs, ← htimes]
      simp only [List.map_append, List.map_cons, List.sum_append, List.sum_cons]
      omega
  · have hempty : named r.1.event.name recs = [] := by
      rw [named, List.filter_eq_nil_iff]
      intro r' hr'
      obtain ⟨row, hrow, hname⟩ := h.names r' hr'
      simpa [← hname] using hnone row hrow
    rw [hadd]
    refine ⟨?_, fun r' hr' ↦ ?_, fun row' hrow' ↦ ?_, fun row' hrow' ↦ ?_, ?_⟩
    · rw [List.map_append, List.nodup_append]
      refine ⟨h.nodup, List.nodup_singleton _, ?_⟩
      rintro _ hmem _ hsingle rfl
      obtain ⟨row, hrow, heq⟩ := List.mem_map.mp hmem
      exact hnone row hrow (heq.trans (List.mem_singleton.mp hsingle))
    · obtain hr' | hr' := List.mem_append.mp hr'
      · obtain ⟨row, hrow, heq⟩ := h.names r' hr'
        exact ⟨row, List.mem_append_left _ hrow, heq⟩
      · obtain rfl := List.mem_singleton.mp hr'
        exact ⟨_, List.mem_append_right _ (.head _), rfl⟩
    · obtain hrow' | hrow' := List.mem_append.mp hrow'
      · exact (hother row' hrow' (hnone row' hrow')).1
      · obtain rfl := List.mem_singleton.mp hrow'
        rw [named_append_of_eq rfl, hempty]
        simp [totalNs]
    · obtain hrow' | hrow' := List.mem_append.mp hrow'
      · exact (hother row' hrow' (hnone row' hrow')).2
      · obtain rfl := List.mem_singleton.mp hrow'
        rw [named_append_of_eq rfl, hempty]
        simp [selfTotalNs]
    · rw [List.map_append, List.sum_append, h.selfTimes, hselfs]
      simp

/-- The rows hold what the records say while no sum exceeds 64 bits. -/
theorem summary_foldl (hle : ∀ r ∈ recs, r.2 ≤ nodeTotalNs r.1)
    (hlt : totalNs recs < SizeT.modulus) : Summary recs (recs.foldl addRecord []) := by
  induction recs using List.reverseRecOn with
  | nil => exact ⟨.nil, nofun, nofun, nofun, rfl⟩
  | append_singleton recs r ih =>
    rw [List.foldl_append]
    refine (ih (fun r' hr' ↦ hle r' (List.mem_append_left _ hr')) ?_).add hle hlt
    rw [totalNs_append] at hlt
    omega

end Rows

end Hisab.Profiler
