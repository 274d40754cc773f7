import Hisab.Base.Fallible
import Hisab.Unwind.Fde

/-!
# The instructions as they are read

What `readInstruction` does with the encoding of an instruction, and the loops of `readUpTo` over
the encoding of a sequence of them.
-/

namespace Hisab.Unwind

open Base Leb128 CallFrame List UInt8

/-- What the interpreter does for an instruction. -/
def execute (fde : Fde) (s : FdeState) : Instruction → Except Fault FdeState
  | .nop => .ok s
  | .advanceLoc delta => s.advanceLoc fde delta
  | .defCfa reg offset => s.defCfa (I64.ofSizeT reg) (I64.ofSizeT offset)
  | .defCfaRegister reg => s.defCfaRegister (I64.ofSizeT reg)
  | .defCfaOffset offset => s.defCfaOffset (I64.ofSizeT offset)
  | .defCfaExpression base addend => s.defCfaDeref base (I64.wrap addend)
  | .undefined reg => s.undefined (I64.ofSizeT reg)
  | .offset reg factored => s.offset fde (I64.ofSizeT reg) (I64.wrap factored)
  | .register reg rhs => s.register (I64.ofSizeT reg) (I64.ofSizeT rhs)
  | .expression reg base addend =>
    s.setRegister (I64.ofSizeT reg) (Action.regPlusDataDerefOf base (I64.wrap addend))
  | .restore reg => s.restore (I64.ofSizeT reg)
  | .rememberState => s.rememberState
  | .restoreState => s.restoreState
  | .argsSize _ => .ok s

variable {fde : Fde} {s : FdeState} {i : Instruction} {bytes rest : List UInt8}

theorem readSLEB128_of_signed64 {n : Int} (h : Signed64 n bytes) (rest : List UInt8) :
    readSLEB128 (bytes ++ rest) = .ok (I64.wrap n, rest) := by
  obtain ⟨x, hread, hx⟩ := readSLEB128_of_encodes h rest
  rw [hread, I64.wrap_eq hx]

theorem toNat_ofNat {n : Nat} (h : n < 256) : (UInt8.ofNat n).toNat = n := by
  rw [toNat_ofNat']
  omega

@[simp] theorem readU8_cons (byte : UInt8) : readU8 (byte :: rest) = .ok (byte, rest) := rfl

theorem readExpression_of_encodes {reg base : Nat} {addend : Int} {bytes' bytes'' : List UInt8}
    (h : base < 16) (hreg : Unsigned64 reg bytes) (hlen : Unsigned64 (bytes''.length + 1) bytes')
    (haddend : Signed64 addend bytes'') (rest : List UInt8) :
    readExpression s (bytes ++ (bytes' ++ UInt8.ofNat (0x70 + base) :: (bytes'' ++ rest))) =
      (execute fde s (.expression reg base addend)).map (rest, ·) := by
  have hop : (ofNat (0x70 + base)).toNat = 0x70 + base := toNat_ofNat (by omega)
  have hhigh : (0x70 + base) / 16 = 7 := by omega
  have hlow : (0x70 + base) % 16 = base := by omega
  simp only [readExpression, readULEB128_of_encodes hreg, readULEB128_of_encodes hlen, ok_bind,
    readU8_cons, hop, if_pos hhigh, readSLEB128_of_signed64 haddend, length_cons,
    length_append, hlow, execute]
  rw [if_pos (by omega)]
  cases s.setRegister _ _ <;> rfl

theorem readDefCfaExpression_of_encodes {base : Nat} {addend : Int} {bytes' : List UInt8}
    (h : base < 16) (hlen : Unsigned64 (bytes'.length + 2) bytes)
    (haddend : Signed64 addend bytes') (rest : List UInt8) :
    readDefCfaExpression s (bytes ++ UInt8.ofNat (0x70 + base) :: (bytes' ++ 0x06 :: rest)) =
      (execute fde s (.defCfaExpression base addend)).map (rest, ·) := by
  have hop : (ofNat (0x70 + base)).toNat = 0x70 + base := toNat_ofNat (by omega)
  have hhigh : (0x70 + base) / 16 = 7 := by omega
  have hlow : (0x70 + base) % 16 = base := by omega
  simp only [readDefCfaExpression, readULEB128_of_encodes hlen, ok_bind,
    readU8_cons, hop, if_pos hhigh, readSLEB128_of_signed64 haddend, length_cons,
    length_append, hlow, execute]
  rw [if_pos (by omega), if_pos ⟨trivial, by omega⟩]
  cases s.defCfaDeref _ _ <;> rfl

theorem readInstruction_of_encodes (h : Encodes i bytes) (rest : List UInt8) :
    readInstruction fde s (bytes ++ rest) = (execute fde s i).map (rest, ·) := by
  cases h with
  | nop => rfl
  | @advanceLoc delta h =>
    have hbyte : (ofNat (0x40 + delta)).toNat = 0x40 + delta := toNat_ofNat (by omega)
    have hhigh : (0x40 + delta) / 64 = 1 := by omega
    have hlow : (0x40 + delta) % 64 = delta := by omega
    simp only [readInstruction, cons_append, readU8_cons, ok_bind, hbyte, hhigh, hlow]
    rfl
  | advanceLoc1 d | advanceLoc2 d₀ d₁ | advanceLoc4 d₀ d₁ d₂ d₃ => rfl
  | @offset reg off bytes h hoff =>
    have hbyte : (ofNat (0x80 + reg)).toNat = 0x80 + reg := toNat_ofNat (by omega)
    have hhigh : (0x80 + reg) / 64 = 2 := by omega
    have hlow : (0x80 + reg) % 64 = reg := by omega
    simp only [readInstruction, cons_append, readU8_cons, ok_bind, hbyte, hhigh, hlow,
      readULEB128_of_encodes hoff, execute, I64.wrap_natCast]
    rfl
  | offsetExtendedSf hreg hoff =>
    rw [cons_append, cons_append, append_assoc]
    show readExtended fde s 0x11 _ = _
    simp only [readExtended, readULEB128_of_encodes hreg, readSLEB128_of_signed64 hoff, ok_bind]
    rfl
  | @restore reg h =>
    have hbyte : (ofNat (0xc0 + reg)).toNat = 0xc0 + reg := toNat_ofNat (by omega)
    have hhigh : (0xc0 + reg) / 64 = 3 := by omega
    have hlow : (0xc0 + reg) % 64 = reg := by omega
    simp only [readInstruction, cons_append, readU8_cons, ok_bind, hbyte, hhigh, hlow]
    rfl
  | restoreExtended hreg =>
    rw [cons_append]
    show readExtended fde s 0x06 _ = _
    simp only [readExtended, readULEB128_of_encodes hreg]
    rfl
  | undefined hreg =>
    rw [cons_append]
    show readExtended fde s 0x07 _ = _
    simp only [readExtended, readULEB128_of_encodes hreg]
    rfl
  | register hreg hrhs =>
    rw [cons_append, cons_append, append_assoc]
    show readExtended fde s 0x09 _ = _
    simp only [readExtended, readULEB128_of_encodes hreg, readULEB128_of_encodes hrhs, ok_bind]
    rfl
  | rememberState | restoreState => rfl
  | defCfa hreg hoff =>
    rw [cons_append, cons_append, append_assoc]
    show readExtended fde s 0x0c _ = _
    simp only [readExtended, readULEB128_of_encodes hreg, readULEB128_of_encodes hoff, ok_bind]
    rfl
  | defCfaRegister hreg =>
    rw [cons_append]
    show readExtended fde s 0x0d _ = _
    simp only [readExtended, readULEB128_of_encodes hreg]
    rfl
  | defCfaOffset hoff =>
    rw [cons_append]
    show readExtended fde s 0x0e _ = _
    simp only [readExtended, readULEB128_of_encodes hoff]
    rfl
  | @defCfaExpression base addend bytes bytes' h hlen haddend =>
    have happend : 0x0f :: bytes ++ ofNat (0x70 + base) :: bytes' ++ [0x06] ++ rest =
        0x0f :: (bytes ++ ofNat (0x70 + base) :: (bytes' ++ 0x06 :: rest)) := by simp
    rw [happend]
    exact readDefCfaExpression_of_encodes h hlen haddend rest
  | @expression reg base addend bytes bytes' bytes'' h hreg hlen haddend =>
    have happend : 0x10 :: bytes ++ bytes' ++ ofNat (0x70 + base) :: bytes'' ++ rest =
        0x10 :: (bytes ++ (bytes' ++ ofNat (0x70 + base) :: (bytes'' ++ rest))) := by simp
    rw [happend]
    exact readExpression_of_encodes h hreg hlen haddend rest
  | argsSize hsize =>
    rw [cons_append]
    show readExtended fde s 0x2e _ = _
    simp only [readExtended, readULEB128_of_encodes hsize]
    rfl

/-! ### The loops -/

/-- A loop of `readUpTo`, over instructions. -/
def executeAll (fde : Fde) (addr : Nat) : FdeState → List Instruction → Except Fault FdeState
  | s, [] => .ok s
  | s, i :: is =>
    if s.currentPc ≤ addr then
      match execute fde s i with
      | .error e => .error e
      | .ok s => executeAll fde addr s is
    else .ok s

theorem readInstructions_of_encodesAll {is : List Instruction} (h : EncodesAll is bytes)
    {fuel addr : Nat} (hfuel : bytes.length ≤ fuel) :
    readInstructions fde addr fuel s bytes = executeAll fde addr s is := by
  induction h generalizing s fuel with
  | nil =>
    cases fuel with
    | zero => rfl
    | succ fuel => simp [readInstructions, executeAll]
  | @cons i is bytes rest hi his ih =>
    have hpos := hi.length_pos
    rw [length_append] at hfuel
    cases fuel with
    | zero => omega
    | succ fuel =>
      have hne : bytes ++ rest ≠ [] := by
        intro hnil
        rw [append_eq_nil_iff] at hnil
        rw [hnil.1] at hpos
        exact absurd hpos (Nat.lt_irrefl 0)
      rw [readInstructions, executeAll, readInstruction_of_encodes hi]
      by_cases haddr : s.currentPc ≤ addr
      · rw [if_pos ⟨hne, haddr⟩, if_pos haddr]
        cases execute fde s i with
        | error e => rfl
        | ok s' => exact ih (by omega)
      · rw [if_neg (fun h ↦ haddr h.2), if_neg haddr]

end Hisab.Unwind
