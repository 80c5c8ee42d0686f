import JitBackend.Machine.Inst

namespace JitBackend.Machine

/-!
# Instruction bytes

The bytes of each instruction. All but a few follow one pattern: mandatory prefix, extension
prefix if it is needed, opcode, operand byte, displacement, immediate.

* `Form.bytes` lays out that pattern;
* `Inst.bytes` are the bytes of an instruction.
-/

/-- A byte of machine code. -/
abbrev Byte := BitVec 8

/-- The bytes of a number, lowest first. -/
def littleEndian {n : Nat} (count : Nat) (v : BitVec n) : List Byte :=
  (List.range count).map fun i => (v >>> (8 * i)).setWidth 8

/-- Whether a 32-bit number is the sign extension of its low byte. -/
def fitsByte (v : BitVec 32) : Bool :=
  (v.setWidth 8).signExtend 32 == v

/-- The operand that is either a register or memory. -/
inductive RegMem where
  | reg (code : BitVec 4)
  | mem (m : Mem)
  deriving DecidableEq, Repr

/-- The common pattern of instructions. -/
structure Form where
  /-- Byte in front that selects among instructions with the same opcode. -/
  mandatory : List Byte
  /-- 64-bit operation. -/
  wide : Bool
  /-- Byte registers that need the extension prefix to be named. -/
  byteRegs : List Gpr
  opcode : List Byte
  /-- Register operand, or further opcode bits. -/
  reg : BitVec 4
  rm : RegMem
  imm : List Byte

namespace Form

/-- Whether a byte register needs the extension prefix. -/
def needsExtension (r : Gpr) : Bool :=
  4 ≤ r.code.toNat && r.code.toNat < 8

/-- Number of the register in the second operand. -/
def rmCode : RegMem → BitVec 4
  | .reg code => code
  | .mem m => m.base.code

/-- The extension prefix, left out if it says nothing. -/
def extension (wide : Bool) (reg rm : BitVec 4) (force : Bool) : List Byte :=
  let bit := fun (b : Bool) (i : Nat) => if b then (1 : Byte) <<< i else 0
  let x := 0x40 ||| bit wide 3 ||| bit (reg.getLsbD 3) 2 ||| bit (rm.getLsbD 3) 0
  if x = 0x40 ∧ !force then [] else [x]

/-- The operand byte. -/
def operandByte (mode : BitVec 2) (reg rm : BitVec 4) : Byte :=
  mode ++ reg.setWidth 3 ++ rm.setWidth 3

/-- Operand byte with what belongs to it. -/
def operandBytes (reg : BitVec 4) : RegMem → List Byte
  | .reg code => [operandByte 3 reg code]
  | .mem m =>
    let base := m.base.code
    let index : List Byte := if base.setWidth 3 = (4 : BitVec 3) then [0x24] else []
    if m.disp = 0 ∧ base.setWidth 3 ≠ (5 : BitVec 3) then
      operandByte 0 reg base :: index
    else if fitsByte m.disp then
      operandByte 1 reg base :: index ++ littleEndian 1 m.disp
    else
      operandByte 2 reg base :: index ++ littleEndian 4 m.disp

/-- Bytes of the pattern. -/
def bytes (f : Form) : List Byte :=
  f.mandatory ++ extension f.wide f.reg (rmCode f.rm) (f.byteRegs.any needsExtension) ++ f.opcode
    ++ operandBytes f.reg f.rm ++ f.imm

end Form

/-- Pattern without prefix, byte registers and immediate. -/
def form (wide : Bool) (opcode : List Byte) (reg : BitVec 4) (rm : RegMem) : Form :=
  ⟨[], wide, [], opcode, reg, rm, []⟩

/-- Opcode bits of an integer operation. -/
def AluOp.code : AluOp → BitVec 4
  | .add => 0
  | .or => 1
  | .and => 4
  | .sub => 5
  | .xor => 6
  | .cmp => 7

/-- Opcode byte of an integer operation; `low` selects its form. -/
def AluOp.opcode (op : AluOp) (low : BitVec 3) : Byte :=
  (0 : BitVec 2) ++ op.code.setWidth 3 ++ low

/-- Opcode bits of a condition. -/
def Cond.code : Cond → BitVec 4
  | .b => 2
  | .ae => 3
  | .e => 4
  | .ne => 5
  | .be => 6
  | .a => 7
  | .np => 11
  | .l => 12
  | .ge => 13
  | .le => 14
  | .g => 15

/-- Opcode bits of a shift. -/
def shiftCode : ShiftOp → BitVec 4
  | .shl => 4
  | .shr => 5
  | .sar => 7

/-- Opcode bits of a unary operation. -/
def unaryCode : IntUnary → BitVec 4
  | .not => 2
  | .neg => 3

/-- Opcode byte of a float operation. -/
def floatOpcode : FloatOp → Byte
  | .add => 0x58
  | .mul => 0x59
  | .sub => 0x5c
  | .div => 0x5e

/-- Mandatory prefix of scalar float instructions. -/
def scalarByte : FloatSize → Byte
  | .single => 0xf3
  | .double => 0xf2

/-- Mandatory prefix of float comparisons. -/
def compareByte : FloatSize → List Byte
  | .single => []
  | .double => [0x66]

/-- A one-byte opcode that holds a register in its low bits. -/
def shortForm (wide : Bool) (opcode : BitVec 5) (r : Gpr) : List Byte :=
  Form.extension wide 0 r.code false ++ [opcode ++ r.code.setWidth 3]

/-- Bytes of an integer load. -/
def loadBytes (width : MemWidth) (signed : Bool) (dst : Gpr) (src : Mem) : List Byte :=
  let opcode : List Byte :=
    match width, signed with
    | .b8, true => [0x0f, 0xbe]
    | .b8, false => [0x0f, 0xb6]
    | .b16, true => [0x0f, 0xbf]
    | .b16, false => [0x0f, 0xb7]
    | .b32, _ | .b64, _ => [0x8b]
  (form (width == .b64) opcode dst.code (.mem src)).bytes

/-- Bytes of an integer store. -/
def storeBytes (width : MemWidth) (dst : Mem) (src : Gpr) : List Byte :=
  match width with
  | .b8 => { form false [0x88] src.code (.mem dst) with byteRegs := [src] }.bytes
  | .b16 => { form false [0x89] src.code (.mem dst) with mandatory := [0x66] }.bytes
  | .b32 => (form false [0x89] src.code (.mem dst)).bytes
  | .b64 => (form true [0x89] src.code (.mem dst)).bytes

/-- Bytes of an integer operation with a constant. The accumulator has a form of its own, which
    is used even for small constants. -/
def aluImmBytes (op : AluOp) (w : Width) (dst : Gpr) (imm : BitVec 32) : List Byte :=
  if dst = .rax then
    Form.extension w.isWide 0 0 false ++ [op.opcode 5] ++ littleEndian 4 imm
  else if fitsByte imm then
    { form w.isWide [0x83] op.code (.reg dst.code) with imm := littleEndian 1 imm }.bytes
  else
    { form w.isWide [0x81] op.code (.reg dst.code) with imm := littleEndian 4 imm }.bytes

/-- Bytes of a multiplication by a constant. -/
def imulImmBytes (w : Width) (dst src : Gpr) (imm : BitVec 32) : List Byte :=
  if fitsByte imm then
    { form w.isWide [0x6b] dst.code (.reg src.code) with imm := littleEndian 1 imm }.bytes
  else
    { form w.isWide [0x69] dst.code (.reg src.code) with imm := littleEndian 4 imm }.bytes

/-- Bytes of a shift by a constant; a shift by one has a shorter form. -/
def shiftImmBytes (op : ShiftOp) (w : Width) (dst : Gpr) (amount : BitVec 6) : List Byte :=
  if amount = 1 then
    (form w.isWide [0xd1] (shiftCode op) (.reg dst.code)).bytes
  else
    { form w.isWide [0xc1] (shiftCode op) (.reg dst.code) with imm := [amount.setWidth 8] }.bytes

/-- Bytes of an instruction. -/
def Inst.bytes : Inst → List Byte
  | .mov w dst src => (form w.isWide [0x89] src.code (.reg dst.code)).bytes
  | .movImm32 dst imm => shortForm false 0x17 dst ++ littleEndian 4 imm
  | .movImm64 dst imm => shortForm true 0x17 dst ++ littleEndian 8 imm
  | .movsxd dst src => (form true [0x63] dst.code (.reg src.code)).bytes
  | .movzxByte dst src =>
    { form false [0x0f, 0xb6] dst.code (.reg src.code) with byteRegs := [src] }.bytes
  | .load width signed dst src => loadBytes width signed dst src
  | .store width dst src => storeBytes width dst src
  | .lea dst src => (form true [0x8d] dst.code (.mem src)).bytes
  | .alu op w dst src => (form w.isWide [op.opcode 1] src.code (.reg dst.code)).bytes
  | .aluImm op w dst imm => aluImmBytes op w dst imm
  | .imul w dst src => (form w.isWide [0x0f, 0xaf] dst.code (.reg src.code)).bytes
  | .imulImm w dst src imm => imulImmBytes w dst src imm
  | .unary op w dst => (form w.isWide [0xf7] (unaryCode op) (.reg dst.code)).bytes
  | .shiftCl op w dst => (form w.isWide [0xd3] (shiftCode op) (.reg dst.code)).bytes
  | .shiftImm op w dst amount => shiftImmBytes op w dst amount
  | .signExtend w => Form.extension w.isWide 0 0 false ++ [0x99]
  | .idiv w divisor => (form w.isWide [0xf7] 7 (.reg divisor.code)).bytes
  | .test w a b => (form w.isWide [0x85] b.code (.reg a.code)).bytes
  | .setcc cond dst =>
    { form false [0x0f, (9 : BitVec 4) ++ cond.code] 0 (.reg dst.code) with
      byteRegs := [dst] }.bytes
  | .andByte dst src =>
    { form false [0x20] src.code (.reg dst.code) with byteRegs := [dst, src] }.bytes
  | .cmovne w dst src => (form w.isWide [0x0f, 0x45] dst.code (.reg src.code)).bytes
  | .movaps dst src => (form false [0x0f, 0x28] dst.code (.reg src.code)).bytes
  | .xorps dst src => (form false [0x0f, 0x57] dst.code (.reg src.code)).bytes
  | .loadFloat s dst src =>
    { form false [0x0f, 0x10] dst.code (.mem src) with mandatory := [scalarByte s] }.bytes
  | .storeFloat s dst src =>
    { form false [0x0f, 0x11] src.code (.mem dst) with mandatory := [scalarByte s] }.bytes
  | .floatArith op s dst src =>
    { form false [0x0f, floatOpcode op] dst.code (.reg src.code) with
      mandatory := [scalarByte s] }.bytes
  | .ucomis s a b =>
    { form false [0x0f, 0x2e] a.code (.reg b.code) with
      mandatory := compareByte s }.bytes
  | .intToFloat s w dst src =>
    { form w.isWide [0x0f, 0x2a] dst.code (.reg src.code) with mandatory := [scalarByte s] }.bytes
  | .floatToInt w s dst src =>
    { form w.isWide [0x0f, 0x2c] dst.code (.reg src.code) with mandatory := [scalarByte s] }.bytes
  | .resize .double dst src =>
    { form false [0x0f, 0x5a] dst.code (.reg src.code) with
      mandatory := [scalarByte .single] }.bytes
  | .resize .single dst src =>
    { form false [0x0f, 0x5a] dst.code (.reg src.code) with
      mandatory := [scalarByte .double] }.bytes
  | .movBits w dst src =>
    { form w.isWide [0x0f, 0x6e] dst.code (.reg src.code) with mandatory := [0x66] }.bytes
  | .call target => (form false [0xff] 2 (.reg target.code)).bytes
  | .push r => shortForm false 0x0a r
  | .pop r => shortForm false 0x0b r
  | .ret => [0xc3]
  | .ud2 => [0x0f, 0x0b]
  | .nop => [0x90]

end JitBackend.Machine
