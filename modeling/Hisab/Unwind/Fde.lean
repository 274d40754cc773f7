import Hisab.Unwind.Lexer

/-!
# The frame description interpreter

`FDE` of `Library/Profiler/bespoke/common/unwind/fde.h` with the `Action` of `action.h`: the
implementations of the instructions, `readInstruction` and `readUpTo`. An FDE is what its
constructor has read of the tables, the bytes of its instructions and of those of its CIE. The
row stack has its top in front.
-/

namespace Hisab.Unwind

open Base

/-- The kinds of an `Action` (`action.h:8–14`). -/
inductive ActionKind
  | undefined
  | regPlusData
  | loadCfaOffset
  | regPlusDataDeref
  deriving DecidableEq, Repr

/-- `Action` (`action.h:26–45`). -/
structure Action where
  kind : ActionKind := .undefined
  reg : Int := -1
  data : I64 := 0
  deriving DecidableEq

namespace Action

def regPlusDataOf (reg : Int) (offset : I64) : Action := { kind := .regPlusData, reg, data := offset }

def regPlusDataDerefOf (reg : Int) (offset : I64) : Action :=
  { kind := .regPlusDataDeref, reg, data := offset }

def loadCfaOffsetOf (offset : I64) : Action := { kind := .loadCfaOffset, data := offset }

end Action

/-- `TableState` (`fde.h:14–30`); `D_REG_SIZE` is 17. -/
@[ext] structure TableState where
  cfa : Action := {}
  registers : Fin 17 → Action := fun _ ↦ {}
  deriving DecidableEq

def TableState.setRegister (t : TableState) (reg : Fin 17) (action : Action) : TableState :=
  { t with registers := Function.update t.registers reg action }

/-- What the constructor of `FDE` has read. -/
structure Fde where
  codeAlignmentFactor : I64
  dataAlignmentFactor : I64
  lowPc : Nat
  highPc : Nat
  cieInstructions : List UInt8
  fdeInstructions : List UInt8

/-- The state accumulated while parsing instructions (`fde.h:468–474`). -/
structure FdeState where
  lastReg : I64 := 0
  lastOffset : I64 := 0
  currentPc : Nat := 0
  initialState : TableState := {}
  stateStack : List TableState := []

/-- `static_cast<int32_t>`. -/
def toInt32 (x : I64) : Int := if x.val % 2 ^ 32 < 2 ^ 31 then x.val % 2 ^ 32
  else x.val % 2 ^ 32 - 2 ^ 32

/-- The index of `registers.at(reg)`, whose argument is a `size_t`. -/
def registerAt (reg : I64) : Except Fault (Fin 17) :=
  if h : reg.toSizeT < 17 then .ok ⟨reg.toSizeT, h⟩ else .error .outOfRange

namespace FdeState

variable (fde : Fde) (s : FdeState)

/-- `state()`. -/
def state : Except Fault TableState :=
  match s.stateStack with
  | [] => .error .undefined
  | top :: _ => .ok top

/-- A change of `state()`. -/
def modifyState (f : TableState → TableState) : Except Fault FdeState :=
  match s.stateStack with
  | [] => .error .undefined
  | top :: stack => .ok { s with stateStack := f top :: stack }

/-- A change of `state().registers.at(reg)`. -/
def setRegister (reg : I64) (action : Action) : Except Fault FdeState :=
  match registerAt reg with
  | .error e => .error e
  | .ok reg => s.modifyState fun t ↦ t.setRegister reg action

/-- `advance_loc` with `advance_raw` (`fde.h:129–147`); an overflow of the product is undefined. -/
def advanceLoc (amount : Nat) : Except Fault FdeState :=
  match I64.ofInt? (amount * fde.codeAlignmentFactor.val) with
  | none => .error .undefined
  | some amount => .ok { s with currentPc := SizeT.add s.currentPc amount.toSizeT }

/-- `offset` (`fde.h:149–164`). -/
def offset (reg offset : I64) : Except Fault FdeState :=
  if 17 < reg.val then .ok s
  else match I64.ofInt? (offset.val * fde.dataAlignmentFactor.val) with
    | none => .error .undefined
    | some data => s.setRegister reg (Action.loadCfaOffsetOf data)

/-- `restore` (`fde.h:166–181`). -/
def restore (reg : I64) : Except Fault FdeState :=
  if 17 < reg.val then .ok s
  else match registerAt reg with
    | .error e => .error e
    | .ok r => s.modifyState fun t ↦ t.setRegister r (s.initialState.registers r)

/-- `def_cfa` (`fde.h:183–192`). -/
def defCfa (reg off : I64) : Except Fault FdeState :=
  { s with lastReg := reg, lastOffset := off }.modifyState fun t ↦
    { t with cfa := Action.regPlusDataOf (toInt32 reg) off }

def defCfaRegister (reg : I64) : Except Fault FdeState := s.defCfa reg s.lastOffset

def defCfaOffset (off : I64) : Except Fault FdeState := s.defCfa s.lastReg off

/-- `remember_state` and `restore_state` (`fde.h:196–211`). -/
def rememberState : Except Fault FdeState :=
  match s.stateStack with
  | [] => .error .undefined
  | top :: stack => .ok { s with stateStack := top :: top :: stack }

def restoreState : Except Fault FdeState :=
  match s.stateStack with
  | [] => .error .undefined
  | _ :: stack => .ok { s with stateStack := stack }

/-- `undefined` (`fde.h:213–220`). -/
def undefined (reg : I64) : Except Fault FdeState := s.setRegister reg {}

/-- `register_` (`fde.h:221–228`), which does not use its second argument. -/
def register (reg _rhsReg : I64) : Except Fault FdeState :=
  s.setRegister reg (Action.regPlusDataOf (toInt32 reg) 0)

/-- A rule set by `DW_CFA_def_cfa_expression` (`fde.h:402–420`). -/
def defCfaDeref (rhsReg : Nat) (addend : I64) : Except Fault FdeState :=
  s.modifyState fun t ↦ { t with cfa := Action.regPlusDataDerefOf rhsReg addend }

end FdeState

/-- The case of `DW_CFA_expression` (`fde.h:379–401`). -/
def readExpression (s : FdeState) (bytes : List UInt8) : Except Fault (List UInt8 × FdeState) := do
  let (reg, bytes) ← readULEB128 bytes
  let (len, bytes) ← readULEB128 bytes
  let (op, rest) ← readU8 bytes
  if op.toNat / 16 = 7 then
    let (addend, rest) ← readSLEB128 rest
    if rest.length + len = bytes.length then
      let s ← s.setRegister (I64.ofSizeT reg) (Action.regPlusDataDerefOf (op.toNat % 16 : Nat) addend)
      return (rest, s)
  throw (.unwindError "Unsupported dwarf expression")

/-- The case of `DW_CFA_def_cfa_expression` (`fde.h:402–423`). -/
def readDefCfaExpression (s : FdeState) (bytes : List UInt8) :
    Except Fault (List UInt8 × FdeState) := do
  let (len, bytes) ← readULEB128 bytes
  let (op, rest) ← readU8 bytes
  if op.toNat / 16 = 7 then
    let (addend, rest) ← readSLEB128 rest
    if rest.length + len ≠ bytes.length then
      let (op2, rest) ← readU8 rest
      if op2 = 0x06 ∧ rest.length + len = bytes.length then
        let s ← s.defCfaDeref (op.toNat % 16) addend
        return (rest, s)
  throw (.unwindError "Unsupported def_cfa dwarf expression")

/-- The instructions whose two high bits are clear (`fde.h:303–424`). -/
def readExtended (fde : Fde) (s : FdeState) (lowbits : Nat) (bytes : List UInt8) :
    Except Fault (List UInt8 × FdeState) := do
  match lowbits with
  | 0x00 => return (bytes, s)
  | 0x02 =>
    let (delta, bytes) ← readU8 bytes
    return (bytes, ← s.advanceLoc fde delta.toNat)
  | 0x03 =>
    let (delta, bytes) ← readU16 bytes
    return (bytes, ← s.advanceLoc fde delta)
  | 0x04 =>
    let (delta, bytes) ← readU32 bytes
    return (bytes, ← s.advanceLoc fde delta)
  | 0x06 =>
    let (reg, bytes) ← readULEB128 bytes
    return (bytes, ← s.restore (I64.ofSizeT reg))
  | 0x07 =>
    let (reg, bytes) ← readULEB128 bytes
    return (bytes, ← s.undefined (I64.ofSizeT reg))
  | 0x09 =>
    let (reg, bytes) ← readULEB128 bytes
    let (rhsReg, bytes) ← readULEB128 bytes
    return (bytes, ← s.register (I64.ofSizeT reg) (I64.ofSizeT rhsReg))
  | 0x0a => return (bytes, ← s.rememberState)
  | 0x0b => return (bytes, ← s.restoreState)
  | 0x0c =>
    let (reg, bytes) ← readULEB128 bytes
    let (off, bytes) ← readULEB128 bytes
    return (bytes, ← s.defCfa (I64.ofSizeT reg) (I64.ofSizeT off))
  | 0x0d =>
    let (reg, bytes) ← readULEB128 bytes
    return (bytes, ← s.defCfaRegister (I64.ofSizeT reg))
  | 0x0e =>
    let (off, bytes) ← readULEB128 bytes
    return (bytes, ← s.defCfaOffset (I64.ofSizeT off))
  | 0x0f => readDefCfaExpression s bytes
  | 0x10 => readExpression s bytes
  | 0x11 =>
    let (reg, bytes) ← readULEB128 bytes
    let (off, bytes) ← readSLEB128 bytes
    return (bytes, ← s.offset fde (I64.ofSizeT reg) off)
  | 0x2e =>
    let (_, bytes) ← readULEB128 bytes
    return (bytes, s)
  | lowbits =>
    throw (.unwindError ("unknown op code 0x" ++ String.ofList (Nat.toDigits 16 lowbits)))

/-- `readInstruction` (`fde.h:296–442`). -/
def readInstruction (fde : Fde) (s : FdeState) (bytes : List UInt8) :
    Except Fault (List UInt8 × FdeState) := do
  let (bc, bytes) ← readU8 bytes
  match bc.toNat / 64 with
  | 0 => readExtended fde s (bc.toNat % 64) bytes
  | 1 => return (bytes, ← s.advanceLoc fde (bc.toNat % 64))
  | 2 =>
    let (off, bytes) ← readULEB128 bytes
    return (bytes, ← s.offset fde (I64.ofSizeT (bc.toNat % 64)) (I64.ofSizeT off))
  | _ => return (bytes, ← s.restore (I64.ofSizeT (bc.toNat % 64)))

/-- A loop of `readUpTo`. An instruction takes a byte at least, so that there are at most as many
of them as bytes. -/
def readInstructions (fde : Fde) (addr : Nat) : Nat → FdeState → List UInt8 → Except Fault FdeState
  | 0, s, _ => .ok s
  | fuel + 1, s, bytes =>
    if bytes ≠ [] ∧ s.currentPc ≤ addr then
      match readInstruction fde s bytes with
      | .error e => .error e
      | .ok (bytes, s) => readInstructions fde addr fuel s bytes
    else .ok s

/-- `readUpTo` (`fde.h:247–288`). -/
def readUpTo (fde : Fde) (addr : Nat) : Except Fault TableState := do
  if addr < fde.lowPc ∨ fde.highPc < addr then throw (.unwindError "Address not in range")
  let s : FdeState := { currentPc := fde.lowPc, stateStack := [{}] }
  let s ← readInstructions fde addr fde.cieInstructions.length s fde.cieInstructions
  if addr < s.currentPc then return ← s.state
  let s := { s with initialState := ← s.state }
  let s ← readInstructions fde addr fde.fdeInstructions.length s fde.fdeInstructions
  s.state

end Hisab.Unwind
