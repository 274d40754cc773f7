import Mathlib.Data.UInt

/-!
# LEB128 numbers

A number in groups of seven bits, the lowest group first; every byte but the last one has its
high bit set. A number has several encodings, since groups that do not change it may follow.
-/

namespace Hisab.Base.Leb128

/-- The encodings of an unsigned number. -/
inductive Unsigned : Nat → List UInt8 → Prop
  | last {b : UInt8} (h : b.toNat < 128) : Unsigned b.toNat [b]
  | more {b : UInt8} {n : Nat} {bytes : List UInt8} (h : 128 ≤ b.toNat) :
      Unsigned n bytes → Unsigned (b.toNat % 128 + 128 * n) (b :: bytes)

/-- The encodings of a signed number, whose last group is read in two's complement. -/
inductive Signed : Int → List UInt8 → Prop
  | last {b : UInt8} (h : b.toNat < 128) :
      Signed (if b.toNat < 64 then b.toNat else b.toNat - 128) [b]
  | more {b : UInt8} {n : Int} {bytes : List UInt8} (h : 128 ≤ b.toNat) :
      Signed n bytes → Signed ((b.toNat % 128 : Nat) + 128 * n) (b :: bytes)

/-- An unsigned number of 64 bits, which takes at most ten bytes. -/
structure Unsigned64 (n : Nat) (bytes : List UInt8) : Prop where
  encodes : Unsigned n bytes
  lt : n < 2 ^ 64
  length_le : bytes.length ≤ 10

/-- A signed number of 64 bits. -/
structure Signed64 (n : Int) (bytes : List UInt8) : Prop where
  encodes : Signed n bytes
  le : -2 ^ 63 ≤ n
  lt : n < 2 ^ 63
  length_le : bytes.length ≤ 10

theorem Signed.length_pos {n : Int} {bytes : List UInt8} (h : Signed n bytes) :
    0 < bytes.length := by
  cases h with
  | last => exact Nat.one_pos
  | more => exact Nat.succ_pos _

/-- A number of one group. -/
theorem Unsigned64.single {b : UInt8} (h : b.toNat < 128) : Unsigned64 b.toNat [b] where
  encodes := .last h
  lt := by omega
  length_le := Nat.le_add_left 1 9

end Hisab.Base.Leb128

/-!
## Call frame instructions

The call frame information of DWARF 4, section 6.4: what the instructions of a CIE and an FDE say
of the row of an address, and their encodings of section 7.23. Expressions are those of the forms
`DW_OP_breg` and, for the CFA, `DW_OP_breg; DW_OP_deref`.
-/

namespace Hisab.Base.CallFrame

/-- A call frame instruction. -/
inductive Instruction
  | nop
  | advanceLoc (delta : Nat)
  | defCfa (reg offset : Nat)
  | defCfaRegister (reg : Nat)
  | defCfaOffset (offset : Nat)
  | defCfaExpression (base : Nat) (addend : Int)
  | undefined (reg : Nat)
  | offset (reg : Nat) (factored : Int)
  | register (reg rhs : Nat)
  | expression (reg base : Nat) (addend : Int)
  | restore (reg : Nat)
  | rememberState
  | restoreState
  | argsSize (size : Nat)
  deriving DecidableEq, Repr

/-- The register whose rule an instruction sets. -/
def Instruction.target : Instruction → Option Nat
  | .undefined reg | .offset reg _ | .register reg _ | .expression reg _ _ | .restore reg => some reg
  | _ => none

/-- How the CFA is found: nothing is said, a register and an offset, or what is stored where an
expression points. -/
inductive CfaRule
  | undefined
  | regOffset (reg offset : Nat)
  | deref (base : Nat) (addend : Int)
  deriving DecidableEq, Repr

/-- How the value of a register in the caller is found: it is lost, stored at a displacement from
the CFA, in another register, or stored where an expression points. -/
inductive RegisterRule
  | undefined
  | offset (displacement : Int)
  | register (reg : Nat)
  | expression (base : Nat) (addend : Int)
  deriving DecidableEq, Repr

/-- A row of the table. -/
structure Row where
  cfa : CfaRule := .undefined
  rules : Nat → RegisterRule := fun _ ↦ .undefined

def Row.setRule (row : Row) (reg : Nat) (rule : RegisterRule) : Row :=
  { row with rules := Function.update row.rules reg rule }

/-- The location and the row that the instructions so far give, and the remembered rows. -/
structure State where
  loc : Nat
  row : Row
  saved : List Row

/-- One instruction. There is no next state where the instruction has no meaning: a location that
is no address, a rule of the CFA changed that is not a register and an offset, or no row
remembered. `initial` is the row of the initial instructions. -/
def step (codeAlign : Nat) (dataAlign : Int) (initial : Row) (s : State) :
    Instruction → Option State
  | .nop => some s
  | .advanceLoc delta =>
    if s.loc + delta * codeAlign < 2 ^ 64 then some { s with loc := s.loc + delta * codeAlign }
    else none
  | .defCfa reg offset => some { s with row := { s.row with cfa := .regOffset reg offset } }
  | .defCfaRegister reg =>
    match s.row.cfa with
    | .regOffset _ offset => some { s with row := { s.row with cfa := .regOffset reg offset } }
    | _ => none
  | .defCfaOffset offset =>
    match s.row.cfa with
    | .regOffset reg _ => some { s with row := { s.row with cfa := .regOffset reg offset } }
    | _ => none
  | .defCfaExpression base addend => some { s with row := { s.row with cfa := .deref base addend } }
  | .undefined reg => some { s with row := s.row.setRule reg .undefined }
  | .offset reg factored =>
    some { s with row := s.row.setRule reg (.offset (factored * dataAlign)) }
  | .register reg rhs => some { s with row := s.row.setRule reg (.register rhs) }
  | .expression reg base addend =>
    some { s with row := s.row.setRule reg (.expression base addend) }
  | .restore reg => some { s with row := s.row.setRule reg (initial.rules reg) }
  | .rememberState => some { s with saved := s.row :: s.saved }
  | .restoreState =>
    match s.saved with
    | [] => none
    | row :: saved => some { s with row, saved }
  | .argsSize _ => some s

/-- The instructions that apply to an address: those before the location passes it. -/
def run (codeAlign : Nat) (dataAlign : Int) (initial : Row) (addr : Nat) :
    State → List Instruction → Option State
  | s, [] => some s
  | s, i :: is =>
    if s.loc ≤ addr then
      match step codeAlign dataAlign initial s i with
      | none => none
      | some s => run codeAlign dataAlign initial addr s is
    else some s

/-- The row of an address: the initial instructions, and then those of the FDE. -/
def rowAt (codeAlign : Nat) (dataAlign : Int) (lowPc : Nat) (cie fde : List Instruction)
    (addr : Nat) : Option Row :=
  match run codeAlign dataAlign {} addr { loc := lowPc, row := {}, saved := [] } cie with
  | none => none
  | some s => (run codeAlign dataAlign s.row addr s fde).map State.row

/-! ### Encodings -/

open Leb128

/-- The encodings of an instruction. -/
inductive Encodes : Instruction → List UInt8 → Prop
  | nop : Encodes .nop [0x00]
  | advanceLoc {delta : Nat} (h : delta < 64) :
      Encodes (.advanceLoc delta) [UInt8.ofNat (0x40 + delta)]
  | advanceLoc1 (d : UInt8) : Encodes (.advanceLoc d.toNat) [0x02, d]
  | advanceLoc2 (d₀ d₁ : UInt8) : Encodes (.advanceLoc (d₀.toNat + 2 ^ 8 * d₁.toNat)) [0x03, d₀, d₁]
  | advanceLoc4 (d₀ d₁ d₂ d₃ : UInt8) :
      Encodes (.advanceLoc (d₀.toNat + 2 ^ 8 * d₁.toNat + 2 ^ 16 * d₂.toNat + 2 ^ 24 * d₃.toNat))
        [0x04, d₀, d₁, d₂, d₃]
  | offset {reg off : Nat} {bytes : List UInt8} (h : reg < 64) (hoff : Unsigned64 off bytes) :
      Encodes (.offset reg off) (UInt8.ofNat (0x80 + reg) :: bytes)
  | offsetExtendedSf {reg : Nat} {off : Int} {bytes bytes' : List UInt8}
      (hreg : Unsigned64 reg bytes) (hoff : Signed64 off bytes') :
      Encodes (.offset reg off) (0x11 :: bytes ++ bytes')
  | restore {reg : Nat} (h : reg < 64) : Encodes (.restore reg) [UInt8.ofNat (0xc0 + reg)]
  | restoreExtended {reg : Nat} {bytes : List UInt8} (hreg : Unsigned64 reg bytes) :
      Encodes (.restore reg) (0x06 :: bytes)
  | undefined {reg : Nat} {bytes : List UInt8} (hreg : Unsigned64 reg bytes) :
      Encodes (.undefined reg) (0x07 :: bytes)
  | register {reg rhs : Nat} {bytes bytes' : List UInt8} (hreg : Unsigned64 reg bytes)
      (hrhs : Unsigned64 rhs bytes') : Encodes (.register reg rhs) (0x09 :: bytes ++ bytes')
  | rememberState : Encodes .rememberState [0x0a]
  | restoreState : Encodes .restoreState [0x0b]
  | defCfa {reg off : Nat} {bytes bytes' : List UInt8} (hreg : Unsigned64 reg bytes)
      (hoff : Unsigned64 off bytes') : Encodes (.defCfa reg off) (0x0c :: bytes ++ bytes')
  | defCfaRegister {reg : Nat} {bytes : List UInt8} (hreg : Unsigned64 reg bytes) :
      Encodes (.defCfaRegister reg) (0x0d :: bytes)
  | defCfaOffset {off : Nat} {bytes : List UInt8} (hoff : Unsigned64 off bytes) :
      Encodes (.defCfaOffset off) (0x0e :: bytes)
  | defCfaExpression {base : Nat} {addend : Int} {bytes bytes' : List UInt8} (h : base < 16)
      (hlen : Unsigned64 (bytes'.length + 2) bytes) (haddend : Signed64 addend bytes') :
      Encodes (.defCfaExpression base addend)
        (0x0f :: bytes ++ UInt8.ofNat (0x70 + base) :: bytes' ++ [0x06])
  | expression {reg base : Nat} {addend : Int} {bytes bytes' bytes'' : List UInt8} (h : base < 16)
      (hreg : Unsigned64 reg bytes) (hlen : Unsigned64 (bytes''.length + 1) bytes')
      (haddend : Signed64 addend bytes'') :
      Encodes (.expression reg base addend)
        (0x10 :: bytes ++ bytes' ++ UInt8.ofNat (0x70 + base) :: bytes'')
  | argsSize {size : Nat} {bytes : List UInt8} (hsize : Unsigned64 size bytes) :
      Encodes (.argsSize size) (0x2e :: bytes)

/-- The encodings of a sequence of instructions. -/
inductive EncodesAll : List Instruction → List UInt8 → Prop
  | nil : EncodesAll [] []
  | cons {i : Instruction} {is : List Instruction} {bytes rest : List UInt8} :
      Encodes i bytes → EncodesAll is rest → EncodesAll (i :: is) (bytes ++ rest)

variable {bytes : List UInt8}

theorem Encodes.length_pos {i : Instruction} (h : Encodes i bytes) : 0 < bytes.length := by
  cases h <;> simp

theorem Encodes.target_lt {i : Instruction} (h : Encodes i bytes) {reg : Nat}
    (hreg : i.target = some reg) : reg < 2 ^ 64 := by
  cases h with
  | offset h _ | restore h =>
    cases hreg
    omega
  | offsetExtendedSf h _ | restoreExtended h | undefined h | register h _ | expression _ h _ _ =>
    cases hreg
    exact h.lt
  | _ => cases hreg

theorem EncodesAll.target_lt {is : List Instruction} (h : EncodesAll is bytes) :
    ∀ i ∈ is, ∀ reg, i.target = some reg → reg < 2 ^ 64 := by
  induction h with
  | nil =>
    intro i hi
    cases hi
  | cons hi his ih =>
    intro j hj reg hreg
    cases hj with
    | head => exact hi.target_lt hreg
    | tail _ hj => exact ih j hj reg hreg

end Hisab.Base.CallFrame
