import Hisab.Unwind.FrameMarks

/-!
# The rows that `readUpTo` returns

The loops keep the agreement of the columns with their marks, so that the call returns the row of
DWARF exactly where every column has its mark.
-/

namespace Hisab.Unwind

open Base CallFrame

variable {initial : Row × Columns} {s : State} {m : Marks} {c : FdeState} {fde : Fde}

/-! ### The loops -/

/-- A fault is never made good. -/
theorem markRun_not_performed {addr : Nat} {is : List Instruction} {r : State × Marks}
    (hrun : markRun fde initial addr s m is = some r) (hm : m.performed = false) :
    r.2.performed = false := by
  induction is generalizing s m with
  | nil =>
    cases hrun
    exact hm
  | cons i is ih =>
    rw [markRun] at hrun
    split at hrun
    · split at hrun
      · cases hrun
      · apply ih hrun
        simp only [hm, Bool.false_and]
    · cases hrun
      exact hm

theorem markRun_eq_run (initial : Row × Columns) (m : Marks) (addr : Nat) (is : List Instruction) :
    (markRun fde initial addr s m is).map Prod.fst =
      run fde.codeAlignmentFactor.toSizeT fde.dataAlignmentFactor.val initial.1 addr s is := by
  induction is generalizing s m with
  | nil => rfl
  | cons i is ih =>
    rw [markRun, run]
    by_cases hloc : s.loc ≤ addr
    · rw [if_pos hloc, if_pos hloc]
      cases step fde.codeAlignmentFactor.toSizeT fde.dataAlignmentFactor.val initial.1 s i with
      | none => rfl
      | some s' => exact ih _
    · rw [if_neg hloc, if_neg hloc]
      rfl

/-- A loop of `readUpTo`: it keeps the agreement of the columns with their marks, or one of its
instructions is a fault. -/
theorem executeAll_of_markRun {addr : Nat} {is : List Instruction} {s' : State} {m' : Marks}
    (hsim : Simulates initial s m c) (hm : m.performed = true)
    (hrun : markRun fde initial addr s m is = some (s', m'))
    (hlt : ∀ i ∈ is, ∀ reg, i.target = some reg → reg < 2 ^ 64) :
    if m'.performed then ∃ c', executeAll fde addr c is = .ok c' ∧ Simulates initial s' m' c'
    else ∃ e, executeAll fde addr c is = .error e := by
  induction is generalizing s m c with
  | nil =>
    cases hrun
    rw [if_pos hm]
    exact ⟨c, rfl, hsim⟩
  | cons i is ih =>
    rw [markRun] at hrun
    rw [executeAll, hsim.loc]
    split at hrun
    · next haddr =>
      rw [if_pos haddr]
      split at hrun
      · cases hrun
      · next s₁ hstep =>
        have hi := hlt i List.mem_cons_self
        cases hp : performs fde i with
        | true =>
          obtain ⟨c₁, hc₁, hsim₁⟩ := hsim.execute hstep hp hi true
          rw [hc₁]
          rw [hp, hm] at hrun
          exact ih hsim₁ rfl hrun fun j hj ↦ hlt j (List.mem_cons_of_mem i hj)
        | false =>
          have hm' := markRun_not_performed hrun (by simp only [hp, Bool.and_false])
          obtain ⟨e, he⟩ := execute_error hp hi
          rw [if_neg (by rw [hm']; decide), he]
          exact ⟨e, rfl⟩
    · next haddr =>
      cases hrun
      rw [if_neg haddr, if_pos hm]
      exact ⟨c, rfl, hsim⟩

/-! ### The row of an address -/

/-- The current table represents the row if and only if every column has its mark. -/
theorem Simulates.state_eq_tableOf_iff (h : Simulates initial s m c) :
    c.state = .ok (tableOf s.row) ↔ m.row.cfa = true ∧ ∀ reg : Fin 17, m.row.rules reg = true := by
  obtain ⟨t, stack, hc, ht, -⟩ := h.top
  rw [FdeState.state, hc, ← ht.eq_tableOf]
  exact Except.ok.injEq t _ ▸ Iff.rfl

/-- The marks do not change beyond the address. -/
theorem markRun_of_lt {addr : Nat} (h : addr < s.loc) (is : List Instruction) :
    markRun fde initial addr s m is = some (s, m) := by
  cases is with
  | nil => rfl
  | cons i is => rw [markRun, if_neg (Nat.not_le.mpr h)]

theorem readUpTo_of_encodesAll {cie is : List Instruction} {addr : Nat}
    (hcie : EncodesAll cie fde.cieInstructions) (his : EncodesAll is fde.fdeInstructions)
    (hlow : fde.lowPc ≤ addr) (hhigh : addr < fde.highPc) :
    readUpTo fde addr =
      (executeAll fde addr { currentPc := fde.lowPc, stateStack := [{}] } cie >>= fun c ↦
        if addr < c.currentPc then c.state
        else c.state >>= fun t ↦
          executeAll fde addr { c with initialState := t } is >>= FdeState.state) := by
  have hrange : ¬ (addr < fde.lowPc ∨ fde.highPc < addr) := by omega
  simp only [readUpTo, if_neg hrange, readInstructions_of_encodesAll hcie (Nat.le_refl _)]
  congr
  funext c
  split
  · cases c.state <;> rfl
  · cases c.state with
    | error e => rfl
    | ok t => simp only [readInstructions_of_encodesAll his (Nat.le_refl _)]

/-- The call returns the row that DWARF assigns to an address if and only if every instruction
that applies to the address is performed, and no column of the row was set by one that is performed
differently. -/
theorem readUpTo_eq_tableOf_iff {cie is : List Instruction} {addr : Nat} {row : Row}
    (hcie : EncodesAll cie fde.cieInstructions) (his : EncodesAll is fde.fdeInstructions)
    (hlow : fde.lowPc ≤ addr) (hhigh : addr < fde.highPc)
    (hrow : rowAt fde.codeAlignmentFactor.toSizeT fde.dataAlignmentFactor.val fde.lowPc cie is addr =
      some row) :
    readUpTo fde addr = .ok (tableOf row) ↔ Performed fde cie is addr := by
  rw [readUpTo_of_encodesAll hcie his hlow hhigh]
  have hstart : Simulates ({}, {}) { loc := fde.lowPc, row := {}, saved := [] } {}
      { currentPc := fde.lowPc, stateStack := [{}] } :=
    ⟨rfl, rfl, rfl, .cons .start .nil, .start⟩
  rw [rowAt, ← markRun_eq_run ({}, {}) {}] at hrow
  cases hfirst : markRun fde ({}, {}) addr { loc := fde.lowPc, row := {}, saved := [] } {} cie with
  | none =>
    rw [hfirst] at hrow
    cases hrow
  | some r =>
    obtain ⟨s₁, m₁⟩ := r
    rw [hfirst] at hrow
    simp only [Option.map_some, ← markRun_eq_run (s₁.row, m₁.row) m₁] at hrow
    cases hsecond : markRun fde (s₁.row, m₁.row) addr s₁ m₁ is with
    | none =>
      rw [hsecond] at hrow
      cases hrow
    | some r =>
      obtain ⟨s₂, m₂⟩ := r
      rw [hsecond] at hrow
      cases hrow
      have hmarks : Performed fde cie is addr ↔ m₂.performed = true ∧ m₂.row.cfa = true ∧
          ∀ reg : Fin 17, m₂.row.rules reg = true := by
        simp [Performed, marksAt, hfirst, hsecond]
      rw [hmarks]
      have hexec := executeAll_of_markRun hstart rfl hfirst hcie.target_lt
      cases hm₁ : m₁.performed with
      | false =>
        -- A fault of the initial instructions.
        rw [hm₁] at hexec
        obtain ⟨e, he⟩ := hexec
        rw [he, markRun_not_performed hsecond hm₁]
        exact iff_of_false nofun (fun h ↦ by cases h.1)
      | true =>
        rw [hm₁] at hexec
        obtain ⟨c₁, hc₁, hsim₁⟩ := hexec
        rw [hc₁, ok_bind]
        by_cases haddr : addr < c₁.currentPc
        · -- The initial instructions pass the address.
          rw [markRun_of_lt (hsim₁.loc ▸ haddr)] at hsecond
          cases hsecond
          rw [if_pos haddr, hsim₁.state_eq_tableOf_iff]
          exact ⟨fun h ↦ ⟨hm₁, h⟩, And.right⟩
        · obtain ⟨t, stack, hc, ht, -⟩ := hsim₁.top
          have hstate : c₁.state = .ok t := by rw [FdeState.state, hc]
          have hinitial : Simulates (s₁.row, m₁.row) s₁ m₁ { c₁ with initialState := t } :=
            ⟨hsim₁.loc, hsim₁.lastReg, hsim₁.lastOffset, hsim₁.stack, ht⟩
          have hexec := executeAll_of_markRun hinitial hm₁ hsecond his.target_lt
          rw [if_neg haddr, hstate, ok_bind]
          cases hm₂ : m₂.performed with
          | false =>
            rw [hm₂] at hexec
            obtain ⟨e, he⟩ := hexec
            rw [he]
            exact iff_of_false nofun (fun h ↦ by cases h.1)
          | true =>
            rw [hm₂] at hexec
            obtain ⟨c₂, hc₂, hsim₂⟩ := hexec
            rw [hc₂, ok_bind, hsim₂.state_eq_tableOf_iff]
            exact ⟨fun h ↦ ⟨rfl, h⟩, And.right⟩

/-- The prologue that pushes the frame pointer, at an address after the push: the CFA is the
register 7 and 16, the return address is at -8 and the frame pointer at -16. -/
def pushingFde : Fde where
  codeAlignmentFactor := 1
  dataAlignmentFactor := I64.wrap (-8)
  lowPc := 0
  highPc := 8
  cieInstructions := [0x0c, 7, 8, 0x90, 1]
  fdeInstructions := [0x41, 0x0e, 16, 0x86, 2]

theorem readUpTo_pushingFde : ∃ row,
    rowAt 1 (-8) 0 [.defCfa 7 8, .offset 16 1] [.advanceLoc 1, .defCfaOffset 16, .offset 6 2] 4 =
      some row ∧
    readUpTo pushingFde 4 = .ok (tableOf row) := by
  have hcie : EncodesAll [.defCfa 7 8, .offset 16 1] pushingFde.cieInstructions :=
    .cons (.defCfa (.single (b := 7) (by decide)) (.single (b := 8) (by decide)))
      (.cons (.offset (show 16 < 64 by decide) (.single (b := 1) (by decide))) .nil)
  have his : EncodesAll [.advanceLoc 1, .defCfaOffset 16, .offset 6 2]
      pushingFde.fdeInstructions :=
    .cons (.advanceLoc (show 1 < 64 by decide))
      (.cons (.defCfaOffset (.single (b := 16) (by decide)))
        (.cons (.offset (show 6 < 64 by decide) (.single (b := 2) (by decide))) .nil))
  refine ⟨_, rfl, (readUpTo_eq_tableOf_iff hcie his (by decide) (by decide) rfl).mpr ?_⟩
  exact ⟨_, rfl, by decide, by decide, by decide⟩

/-- The CFA rule that `DW_CFA_restore_state` brings back is changed with operands of the rule that
it replaces: `def_cfa 7 8`, `remember_state`, `def_cfa_offset 16`, `restore_state` and
`def_cfa_register 6` give the register 6 and the offset 16, where DWARF says 8. -/
def rememberingFde : Fde where
  codeAlignmentFactor := 1
  dataAlignmentFactor := 1
  lowPc := 0
  highPc := 1
  cieInstructions := [0x0c, 7, 8]
  fdeInstructions := [0x0a, 0x0e, 16, 0x0b, 0x0d, 6]

theorem restored_offset_lost : EncodesAll [.defCfa 7 8] rememberingFde.cieInstructions ∧
    EncodesAll [.rememberState, .defCfaOffset 16, .restoreState, .defCfaRegister 6]
      rememberingFde.fdeInstructions ∧
    ∃ row t, rowAt 1 1 0 [.defCfa 7 8]
        [.rememberState, .defCfaOffset 16, .restoreState, .defCfaRegister 6] 0 = some row ∧
      (tableOf row).cfa = Action.regPlusDataOf 6 (I64.ofSizeT 8) ∧
      readUpTo rememberingFde 0 = .ok t ∧ t.cfa = Action.regPlusDataOf 6 (I64.ofSizeT 16) := by
  constructor
  · exact .cons (.defCfa (.single (b := 7) (by decide)) (.single (b := 8) (by decide))) .nil
  constructor
  · exact .cons .rememberState (.cons (.defCfaOffset (.single (b := 16) (by decide)))
      (.cons .restoreState (.cons (.defCfaRegister (.single (b := 6) (by decide))) .nil)))
  · exact ⟨_, _, rfl, rfl, rfl, rfl⟩

end Hisab.Unwind
