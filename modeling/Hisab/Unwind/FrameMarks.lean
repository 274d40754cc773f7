import Hisab.Unwind.Instructions

/-!
# The columns that the interpreter gets right

A row of DWARF is represented by a `TableState`. The interpreter is compared with the reference
semantics column by column: a mark says whether the column of the current row was set by an
instruction that the interpreter performs as DWARF says.
-/

namespace Hisab.Unwind

open Base CallFrame I64 FdeState Nat Action

def cfaAction : CfaRule → Action
  | .undefined => {}
  | .regOffset reg offset => Action.regPlusDataOf reg (I64.ofSizeT offset)
  | .deref base addend => Action.regPlusDataDerefOf base (I64.wrap addend)

def registerAction : RegisterRule → Action
  | .undefined => {}
  | .offset displacement => Action.loadCfaOffsetOf (I64.wrap displacement)
  | .register reg => Action.regPlusDataOf reg 0
  | .expression base addend => Action.regPlusDataDerefOf base (I64.wrap addend)

/-- The table that represents a row. -/
def tableOf (row : Row) : TableState where
  cfa := cfaAction row.cfa
  registers reg := registerAction (row.rules reg)

/-- A mark for each column of a row. -/
structure Columns where
  cfa : Bool := true
  rules : Nat → Bool := fun _ ↦ true

def Columns.setRule (columns : Columns) (reg : Nat) (mark : Bool) : Columns :=
  { columns with rules := Function.update columns.rules reg mark }

/-- The marks of the row and of the remembered ones, with the operands that the interpreter keeps
beside the rows: those of the last instruction for the CFA in the order of the program. -/
structure Marks where
  lastReg : Nat := 0
  lastOffset : Nat := 0
  row : Columns := {}
  saved : List Columns := []
  performed : Bool := true

/-- An instruction is performed: its arithmetic is in the range of `int64_t`, and its register is
one of the table or, where large registers are ignored, one beyond the size of the table. -/
def performs (fde : Fde) : Instruction → Bool
  | .advanceLoc delta => (I64.ofInt? (delta * fde.codeAlignmentFactor.val)).isSome
  | .offset reg factored =>
    if reg < 17 then (I64.ofInt? ((I64.wrap factored).val * fde.dataAlignmentFactor.val)).isSome
    else 17 < reg ∧ reg < 2 ^ 63
  | .restore reg => reg ≠ 17 ∧ reg < 2 ^ 63
  | .undefined reg => reg < 17
  | .register reg _ => reg < 17
  | .expression reg _ _ => reg < 17
  | _ => true

/-- The register of the CFA is kept in 32 bits. -/
def storesReg (stored reg : Nat) : Bool := toInt32 (I64.ofSizeT stored) = reg

/-- The marks after an instruction. -/
def markRow (initial : Columns) (s : State) (m : Marks) : Instruction → Marks
  | .defCfa reg offset =>
    { m with lastReg := reg, lastOffset := offset, row.cfa := storesReg reg reg }
  | .defCfaRegister reg =>
    match s.row.cfa with
    | .regOffset _ offset =>
      { m with lastReg := reg
               row.cfa := storesReg reg reg &&
                I64.ofSizeT m.lastOffset = I64.ofSizeT offset }
    | _ => m
  | .defCfaOffset offset =>
    match s.row.cfa with
    | .regOffset reg _ => { m with lastOffset := offset, row.cfa := storesReg m.lastReg reg }
    | _ => m
  | .defCfaExpression _ _ => { m with row.cfa := true }
  | .undefined reg => { m with row := m.row.setRule reg true }
  | .offset reg _ => { m with row := m.row.setRule reg true }
  | .register reg rhs => { m with row := m.row.setRule reg (reg = rhs) }
  | .expression reg _ _ => { m with row := m.row.setRule reg true }
  | .restore reg => { m with row := m.row.setRule reg (initial.rules reg) }
  | .rememberState => { m with saved := m.row :: m.saved }
  | .restoreState =>
    match m.saved with
    | [] => m
    | row :: saved => { m with row, saved }
  | _ => m

/-- The marks of the instructions that apply to an address, with the state that they give. -/
def markRun (fde : Fde) (initial : Row × Columns) (addr : Nat) :
    State → Marks → List Instruction → Option (State × Marks)
  | s, m, [] => some (s, m)
  | s, m, i :: is =>
    if s.loc ≤ addr then
      match step fde.codeAlignmentFactor.toSizeT fde.dataAlignmentFactor.val initial.1 s i with
      | none => none
      | some s' => markRun fde initial addr s'
          { markRow initial.2 s m i with performed := m.performed && performs fde i } is
    else some (s, m)

/-- The marks at an address. -/
def marksAt (fde : Fde) (cie is : List Instruction) (addr : Nat) : Option Marks :=
  match markRun fde ({}, {}) addr { loc := fde.lowPc, row := {}, saved := [] } {} cie with
  | none => none
  | some (s, m) => (markRun fde (s.row, m.row) addr s m is).map Prod.snd

/-- Every instruction that applies to the address is performed, and every column of the row was
set by one that is performed as DWARF says. -/
def Performed (fde : Fde) (cie is : List Instruction) (addr : Nat) : Prop :=
  ∃ m, marksAt fde cie is addr = some m ∧ m.performed = true ∧ m.row.cfa = true ∧
    ∀ reg : Fin 17, m.row.rules reg = true

/-! ### The comparison -/

/-- The columns of a table with a mark are those of the row, and no others. -/
structure Agrees (row : Row) (columns : Columns) (t : TableState) : Prop where
  cfa : t.cfa = cfaAction row.cfa ↔ columns.cfa = true
  rules : ∀ reg : Fin 17, t.registers reg = registerAction (row.rules reg) ↔
    columns.rules reg = true

/-- The remembered rows with their marks, and the row stack. -/
inductive AgreesAll : List Row → List Columns → List TableState → Prop
  | nil : AgreesAll [] [] []
  | cons {row rows columns saved t stack} : Agrees row columns t → AgreesAll rows saved stack →
      AgreesAll (row :: rows) (columns :: saved) (t :: stack)

/-- The interpreter's state for a state of the reference semantics and its marks. -/
structure Simulates (initial : Row × Columns) (s : State) (m : Marks) (c : FdeState) : Prop where
  loc : c.currentPc = s.loc
  lastReg : c.lastReg = I64.ofSizeT m.lastReg
  lastOffset : c.lastOffset = I64.ofSizeT m.lastOffset
  stack : AgreesAll (s.row :: s.saved) (m.row :: m.saved) c.stateStack
  initial : Agrees initial.1 initial.2 c.initialState

variable {row : Row} {columns : Columns} {t : TableState}

theorem Agrees.start : Agrees {} {} {} where
  cfa := by simp [cfaAction]
  rules reg := by simp [registerAction]

theorem Agrees.eq_tableOf (h : Agrees row columns t) :
    t = tableOf row ↔ columns.cfa = true ∧ ∀ reg : Fin 17, columns.rules reg = true := by
  constructor
  · intro heq
    subst heq
    constructor
    · exact h.cfa.mp rfl
    · intro reg
      exact (h.rules reg).mp rfl
  · intro hmarks
    apply TableState.ext
    · exact h.cfa.mpr hmarks.1
    · funext reg
      exact (h.rules reg).mpr (hmarks.2 reg)

theorem Agrees.setCfa (h : Agrees row columns t) {rule : CfaRule} {mark : Bool} {action : Action}
    (hmark : action = cfaAction rule ↔ mark = true) :
    Agrees { row with cfa := rule } { columns with cfa := mark } { t with cfa := action } where
  cfa := hmark
  rules := h.rules

theorem Agrees.setRule (h : Agrees row columns t) (reg : Fin 17) {rule : RegisterRule}
    {mark : Bool} {action : Action} (hmark : action = registerAction rule ↔ mark = true) :
    Agrees (row.setRule reg rule) (columns.setRule reg mark) (t.setRegister reg action) where
  cfa := h.cfa
  rules r := by
    by_cases hr : r = reg
    · subst hr
      simpa [Row.setRule, Columns.setRule, TableState.setRegister] using hmark
    · have hr' : (r : Nat) ≠ reg := fun h ↦ hr (Fin.ext h)
      simpa [Row.setRule, Columns.setRule, TableState.setRegister, hr, hr'] using h.rules r

/-- The rule of a register beyond the table is in no column. -/
theorem Agrees.setRule_of_le (h : Agrees row columns t) {reg : Nat} (hreg : 17 ≤ reg)
    (rule : RegisterRule) (mark : Bool) :
    Agrees (row.setRule reg rule) (columns.setRule reg mark) t where
  cfa := h.cfa
  rules r := by
    have hr : (r : Nat) ≠ reg := by omega
    simpa [Row.setRule, Columns.setRule, hr] using h.rules r

/-! ### An instruction -/

variable {initial : Row × Columns} {s s' : State} {m : Marks} {c : FdeState} {fde : Fde}
  {i : Instruction} {reg : Nat}

theorem val_ofSizeT_of_lt (h : reg < 2 ^ 63) : (I64.ofSizeT reg).val = reg :=
  val_ofSizeT (le_pred_of_lt h)

theorem registerAt_of_lt (h : reg < 17) : registerAt (I64.ofSizeT reg) = .ok ⟨reg, h⟩ := by
  have hreg : (ofSizeT reg).toSizeT = reg := toSizeT_ofSizeT (lt_trans h (by decide))
  simp [registerAt, hreg, h]

theorem registerAt_of_le (hle : 17 ≤ reg) (hlt : reg < 2 ^ 64) :
    registerAt (I64.ofSizeT reg) = .error .outOfRange := by
  have hreg : (ofSizeT reg).toSizeT = reg := toSizeT_ofSizeT hlt
  rw [registerAt, hreg, dif_neg (not_lt.mpr hle)]

theorem regPlusDataOf_inj {r r' : Int} {x x' : I64} :
    Action.regPlusDataOf r x = Action.regPlusDataOf r' x' ↔ r = r' ∧ x = x' := by
  simp [regPlusDataOf]

theorem toInt32_of_lt (h : reg < 2 ^ 31) : toInt32 (I64.ofSizeT reg) = reg := by
  rw [toInt32, val_ofSizeT_of_lt (by omega)]
  split <;> omega

/-- A large register is one that the interpreter ignores, or one whose number is negative. -/
theorem large_iff (hle : 17 ≤ reg) (hlt : reg < 2 ^ 64) :
    17 < (I64.ofSizeT reg).val ↔ 17 < reg ∧ reg < 2 ^ 63 := by
  unfold ofSizeT
  dsimp only
  split <;> omega

/-- The sum of a location and an advance in the range of `int64_t`. -/
theorem add_toSizeT {loc amount factor : Nat} {x code : I64}
    (hx : x.val = amount * code.val) (hfactor : code.toSizeT = factor)
    (hloc : loc + amount * factor < 2 ^ 64) :
    SizeT.add loc x.toSizeT = loc + amount * factor := by
  have hcast : (x.toSizeT : ZMod SizeT.modulus) = (amount * factor : Nat) := by
    rw [cast_toSizeT, hx, ← hfactor]
    push_cast
    rw [cast_toSizeT]
  have hmod := ((ZMod.natCast_eq_natCast_iff _ _ _).mp hcast).add_left loc
  rw [SizeT.add, hmod]
  exact mod_eq_of_lt hloc

theorem wrap_mul {x data : I64} {n : Int} (hx : x.val = (I64.wrap n).val * data.val) :
    I64.wrap (n * data.val) = x := by
  rw [← wrap_eq hx]
  apply wrap_congr
  rw [Int.mul_emod, ← wrap_emod n, ← Int.mul_emod]

namespace Simulates

variable (h : Simulates initial s m c)

include h

/-- The row stack has a top, which stands for the row. -/
theorem top : ∃ t stack, c.stateStack = t :: stack ∧ Agrees s.row m.row t ∧
    AgreesAll s.saved m.saved stack := by
  cases hc : c.stateStack with
  | nil =>
    have hstack := h.stack
    rw [hc] at hstack
    cases hstack
  | cons t stack =>
    have hstack := h.stack
    rw [hc] at hstack
    cases hstack with
    | cons ht hstack => exact ⟨t, stack, rfl, ht, hstack⟩

theorem setRegister (hreg : reg < 17) {rule : RegisterRule} {mark : Bool} {action : Action}
    (hmark : action = registerAction rule ↔ mark = true) :
    ∃ c', c.setRegister (I64.ofSizeT reg) action = .ok c' ∧
      Simulates initial { s with row := s.row.setRule reg rule }
        { m with row := m.row.setRule reg mark } c' := by
  obtain ⟨t, stack, hc, ht, hstack⟩ := h.top
  refine ⟨{ c with stateStack := t.setRegister ⟨reg, hreg⟩ action :: stack }, ?_, ?_⟩
  · simp only [FdeState.setRegister, registerAt_of_lt hreg, modifyState, hc]
  · exact ⟨h.loc, h.lastReg, h.lastOffset, .cons (ht.setRule ⟨reg, hreg⟩ hmark) hstack, h.initial⟩

/-- The rule of the CFA changes, with the operands that are kept. -/
theorem setCfa {rule : CfaRule} {mark : Bool} {action : Action}
    (hmark : action = cfaAction rule ↔ mark = true) {lastReg lastOffset : Nat} {r off : I64}
    (hr : r = I64.ofSizeT lastReg) (hoff : off = I64.ofSizeT lastOffset) :
    ∃ c', { c with lastReg := r, lastOffset := off }.modifyState
        (fun t ↦ { t with cfa := action }) = .ok c' ∧
      Simulates initial { s with row := { s.row with cfa := rule } }
        { m with lastReg, lastOffset, row.cfa := mark } c' := by
  obtain ⟨t, stack, hc, ht, hstack⟩ := h.top
  refine ⟨{ c with lastReg := r, lastOffset := off, stateStack := { t with cfa := action } :: stack },
    ?_, ?_⟩
  · simp only [modifyState, hc]
  · exact ⟨h.loc, hr, hoff, .cons (ht.setCfa hmark) hstack, h.initial⟩

theorem advanceLoc {delta : Nat} (hstep : step fde.codeAlignmentFactor.toSizeT
      fde.dataAlignmentFactor.val initial.1 s (.advanceLoc delta) = some s')
    (hi : performs fde (.advanceLoc delta) = true) :
    ∃ c', c.advanceLoc fde delta = .ok c' ∧ Simulates initial s' m c' := by
  obtain ⟨amount, hamount⟩ := Option.isSome_iff_exists.mp hi
  rw [step] at hstep
  split at hstep
  · next hloc =>
    cases hstep
    refine ⟨{ c with currentPc := SizeT.add c.currentPc amount.toSizeT }, ?_, ?_, h.lastReg,
      h.lastOffset, h.stack, h.initial⟩
    · simp only [advanceLoc, hamount]
    · rw [h.loc, add_toSizeT (ofInt?_eq_some.mp hamount) rfl hloc]
  · cases hstep

theorem offset {factored : Int} (hi : performs fde (.offset reg factored) = true)
    (hlt : reg < 2 ^ 64) :
    ∃ c', c.offset fde (I64.ofSizeT reg) (I64.wrap factored) = .ok c' ∧ Simulates initial
        { s with row := s.row.setRule reg (.offset (factored * fde.dataAlignmentFactor.val)) }
        { m with row := m.row.setRule reg true } c' := by
  by_cases hreg : reg < 17
  · rw [performs, if_pos hreg] at hi
    obtain ⟨data, hdata⟩ := Option.isSome_iff_exists.mp hi
    have hval : ¬ 17 < (ofSizeT reg).val := by
      rw [val_ofSizeT_of_lt (by omega)]
      omega
    have hmark : loadCfaOffsetOf data =
        registerAction (.offset (factored * fde.dataAlignmentFactor.val)) ↔ true = true := by
      rw [registerAction, wrap_mul (ofInt?_eq_some.mp hdata)]
      exact iff_of_true rfl rfl
    simp only [FdeState.offset, if_neg hval, hdata]
    exact h.setRegister hreg hmark
  · obtain ⟨t, stack, hc, ht, hstack⟩ := h.top
    rw [performs, if_neg hreg] at hi
    have hval : 17 < (ofSizeT reg).val := by
      rw [val_ofSizeT_of_lt (of_decide_eq_true hi).2]
      exact_mod_cast (of_decide_eq_true hi).1
    refine ⟨c, by rw [FdeState.offset, if_pos hval], h.loc, h.lastReg, h.lastOffset, ?_, h.initial⟩
    rw [hc]
    exact .cons (ht.setRule_of_le (not_lt.mp hreg) _ _) hstack

theorem restore (hi : performs fde (.restore reg) = true) (hlt : reg < 2 ^ 64) :
    ∃ c', c.restore (I64.ofSizeT reg) = .ok c' ∧
      Simulates initial { s with row := s.row.setRule reg (initial.1.rules reg) }
        { m with row := m.row.setRule reg (initial.2.rules reg) } c' := by
  have hi := of_decide_eq_true hi
  by_cases hreg : reg < 17
  · have hval : ¬ 17 < (ofSizeT reg).val := by
      rw [val_ofSizeT_of_lt (by omega)]
      omega
    have hset := h.setRegister hreg (h.initial.rules ⟨reg, hreg⟩)
    rw [FdeState.setRegister] at hset
    simpa only [FdeState.restore, if_neg hval, registerAt_of_lt hreg] using hset
  · obtain ⟨t, stack, hc, ht, hstack⟩ := h.top
    have hval : 17 < (ofSizeT reg).val := by
      rw [val_ofSizeT_of_lt hi.2]
      omega
    refine ⟨c, by rw [FdeState.restore, if_pos hval], h.loc, h.lastReg, h.lastOffset, ?_, h.initial⟩
    rw [hc]
    exact .cons (ht.setRule_of_le (not_lt.mp hreg) _ _) hstack

/-- An instruction that is performed keeps the agreement of each column with its mark. -/
theorem execute (hstep : step fde.codeAlignmentFactor.toSizeT fde.dataAlignmentFactor.val
      initial.1 s i = some s') (hi : performs fde i = true)
    (hlt : ∀ reg, i.target = some reg → reg < 2 ^ 64) (performed : Bool) :
    ∃ c', execute fde c i = .ok c' ∧
      Simulates initial s' { markRow initial.2 s m i with performed } c' := by
  have h' : Simulates initial s { m with performed } c :=
    ⟨h.loc, h.lastReg, h.lastOffset, h.stack, h.initial⟩
  cases i with
  | nop =>
    cases hstep
    exact ⟨c, rfl, h'⟩
  | advanceLoc delta => exact h'.advanceLoc hstep hi
  | defCfa reg offset =>
    cases hstep
    have hmark : regPlusDataOf (toInt32 (ofSizeT reg)) (ofSizeT offset) =
        cfaAction (.regOffset reg offset) ↔ storesReg reg reg = true := by
      simp [cfaAction, regPlusDataOf_inj, storesReg]
    exact h'.setCfa hmark rfl rfl
  | defCfaRegister reg =>
    rw [step] at hstep
    split at hstep
    · next r offset hcfa =>
      cases hstep
      have hmark : regPlusDataOf (toInt32 (ofSizeT reg)) c.lastOffset =
          cfaAction (.regOffset reg offset) ↔
          (storesReg reg reg && ofSizeT m.lastOffset = ofSizeT offset) = true := by
        simp [cfaAction, regPlusDataOf_inj, storesReg, h'.lastOffset]
      simp only [markRow, hcfa]
      exact h'.setCfa hmark rfl h'.lastOffset
    · cases hstep
  | defCfaOffset offset =>
    rw [step] at hstep
    split at hstep
    · next reg off hcfa =>
      cases hstep
      have hmark : regPlusDataOf (toInt32 c.lastReg) (ofSizeT offset) =
          cfaAction (.regOffset reg offset) ↔ storesReg m.lastReg reg = true := by
        simp [cfaAction, regPlusDataOf_inj, storesReg, h'.lastReg]
      simp only [markRow, hcfa]
      exact h'.setCfa hmark h'.lastReg rfl
    · cases hstep
  | defCfaExpression base addend =>
    cases hstep
    have hmark : regPlusDataDerefOf base (wrap addend) =
        cfaAction (.deref base addend) ↔ true = true := iff_of_true rfl rfl
    exact h'.setCfa hmark h'.lastReg h'.lastOffset
  | undefined reg =>
    cases hstep
    have hmark : ({} : Action) = registerAction .undefined ↔ true = true := iff_of_true rfl rfl
    exact h'.setRegister (of_decide_eq_true hi) hmark
  | offset reg factored =>
    cases hstep
    exact h'.offset hi (hlt reg rfl)
  | register reg rhs =>
    cases hstep
    have hreg : reg < 17 := of_decide_eq_true hi
    have hmark : regPlusDataOf (toInt32 (ofSizeT reg)) 0 =
        registerAction (.register rhs) ↔ decide (reg = rhs) = true := by
      rw [toInt32_of_lt (lt_trans hreg (by decide))]
      simp [registerAction, regPlusDataOf_inj]
    exact h'.setRegister hreg hmark
  | expression reg base addend =>
    cases hstep
    have hmark : regPlusDataDerefOf base (wrap addend) =
        registerAction (.expression base addend) ↔ true = true := iff_of_true rfl rfl
    exact h'.setRegister (of_decide_eq_true hi) hmark
  | restore reg =>
    cases hstep
    exact h'.restore hi (hlt reg rfl)
  | rememberState =>
    cases hstep
    obtain ⟨t, stack, hc, ht, hstack⟩ := h'.top
    refine ⟨{ c with stateStack := t :: t :: stack }, ?_, h'.loc, h'.lastReg, h'.lastOffset, ?_,
      h'.initial⟩
    · simp only [Unwind.execute, rememberState, hc]
    · exact .cons ht (.cons ht hstack)
  | restoreState =>
    obtain ⟨t, stack, hc, ht, hstack⟩ := h'.top
    rw [step] at hstep
    split at hstep
    · cases hstep
    · next row saved hsaved =>
      cases hstep
      rw [hsaved] at hstack
      refine ⟨{ c with stateStack := stack }, ?_, h'.loc, ?_, ?_, ?_, h'.initial⟩
      · simp only [Unwind.execute, restoreState, hc]
      all_goals cases hm : m.saved <;> simp only [markRow, hm]
      · exact h'.lastReg
      · exact h'.lastReg
      · exact h'.lastOffset
      · exact h'.lastOffset
      · rw [hm] at hstack
        cases hstack
      · rw [hm] at hstack
        exact hstack
  | argsSize size =>
    cases hstep
    exact ⟨c, rfl, h'⟩

end Simulates

/-- An instruction that is not performed is a fault. -/
theorem execute_error (hi : performs fde i = false)
    (hlt : ∀ reg, i.target = some reg → reg < 2 ^ 64) : ∃ e, execute fde c i = .error e := by
  cases i with
  | advanceLoc delta =>
    have hnone := Option.not_isSome_iff_eq_none.mp (ne_true_of_eq_false hi)
    exact ⟨.undefined, by simp only [execute, advanceLoc, hnone]⟩
  | undefined reg =>
    have hreg := registerAt_of_le (not_lt.mp (of_decide_eq_false hi)) (hlt reg rfl)
    exact ⟨.outOfRange, by simp only [execute, undefined, setRegister, hreg]⟩
  | register reg rhs =>
    have hreg := registerAt_of_le (not_lt.mp (of_decide_eq_false hi)) (hlt reg rfl)
    exact ⟨.outOfRange, by simp only [execute, register, setRegister, hreg]⟩
  | expression reg base addend =>
    have hreg := registerAt_of_le (not_lt.mp (of_decide_eq_false hi)) (hlt reg rfl)
    exact ⟨.outOfRange, by simp only [execute, setRegister, hreg]⟩
  | offset reg factored =>
    by_cases hlow : reg < 17
    · rw [performs, if_pos hlow] at hi
      have hnone := Option.not_isSome_iff_eq_none.mp (ne_true_of_eq_false hi)
      have hval : ¬ 17 < (ofSizeT reg).val := by
        rw [val_ofSizeT_of_lt (by omega)]
        omega
      exact ⟨.undefined, by simp only [execute, offset, if_neg hval, hnone]⟩
    · rw [performs, if_neg hlow] at hi
      have hval := mt (large_iff (not_lt.mp hlow) (hlt reg rfl)).mp (of_decide_eq_false hi)
      have hreg := registerAt_of_le (not_lt.mp hlow) (hlt reg rfl)
      simp only [execute, offset, if_neg hval, setRegister, hreg]
      cases ofInt? _ with
      | none => exact ⟨.undefined, rfl⟩
      | some data => exact ⟨.outOfRange, rfl⟩
  | restore reg =>
    have hi := of_decide_eq_false hi
    have hle : 17 ≤ reg := by omega
    have hval : ¬ 17 < (ofSizeT reg).val := mt (large_iff hle (hlt reg rfl)).mp (by omega)
    have hreg := registerAt_of_le hle (hlt reg rfl)
    exact ⟨.outOfRange, by simp only [execute, restore, if_neg hval, hreg]⟩
  | _ => cases hi

end Hisab.Unwind
