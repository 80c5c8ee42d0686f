import JitBackend.Opcode

namespace JitBackend.Machine

/-!
# Machine instructions

The x86-64 instructions that generated code consists of, jumps excepted. Registers are the
sixteen of each bank, memory operands a base with a displacement.

* `Gpr` and `Xmm` are the registers, `Mem` is a memory operand;
* `Inst` is one instruction without a jump target.
-/

/-- A general-purpose register, by its number. -/
structure Gpr where
  code : BitVec 4
  deriving DecidableEq, Repr

/-- A float register, by its number. -/
structure Xmm where
  code : BitVec 4
  deriving DecidableEq, Repr

/-- Accumulator. -/
def Gpr.rax : Gpr := ⟨0⟩

/-- Width of an integer load or store. -/
inductive MemWidth where
  | b8 | b16 | b32 | b64
  deriving DecidableEq, Repr

/-- Two-address integer operations; `cmp` only sets the flags. -/
inductive AluOp where
  | add | sub | and | or | xor | cmp
  deriving DecidableEq, Repr

/-- Conditions on the flags. -/
inductive Cond where
  | e | ne | l | le | g | ge | b | be | a | ae | np
  deriving DecidableEq, Repr

/-- Memory at an address: the content of a register plus a displacement. -/
structure Mem where
  base : Gpr
  disp : BitVec 32
  deriving DecidableEq, Repr

/-- A machine instruction other than a jump. -/
inductive Inst where
  /-- Copy; the 32-bit form clears the upper half. -/
  | mov (w : Width) (dst src : Gpr)
  | movImm32 (dst : Gpr) (imm : BitVec 32)
  | movImm64 (dst : Gpr) (imm : BitVec 64)
  /-- Sign extension from 32 to 64 bits. -/
  | movsxd (dst src : Gpr)
  /-- Zero extension of the low byte. -/
  | movzxByte (dst src : Gpr)
  /-- Integer load; narrow ones are extended to 32 bits. -/
  | load (width : MemWidth) (signed : Bool) (dst : Gpr) (src : Mem)
  | store (width : MemWidth) (dst : Mem) (src : Gpr)
  | lea (dst : Gpr) (src : Mem)
  | alu (op : AluOp) (w : Width) (dst src : Gpr)
  | aluImm (op : AluOp) (w : Width) (dst : Gpr) (imm : BitVec 32)
  | imul (w : Width) (dst src : Gpr)
  | imulImm (w : Width) (dst src : Gpr) (imm : BitVec 32)
  | unary (op : IntUnary) (w : Width) (dst : Gpr)
  /-- Shift by the low byte of the count register. -/
  | shiftCl (op : ShiftOp) (w : Width) (dst : Gpr)
  | shiftImm (op : ShiftOp) (w : Width) (dst : Gpr) (amount : BitVec 6)
  /-- Sign extension of the accumulator into the data register. -/
  | signExtend (w : Width)
  | idiv (w : Width) (divisor : Gpr)
  | test (w : Width) (a b : Gpr)
  | setcc (cond : Cond) (dst : Gpr)
  /-- Conjunction of low bytes. -/
  | andByte (dst src : Gpr)
  | cmovne (w : Width) (dst src : Gpr)
  | movaps (dst src : Xmm)
  | xorps (dst src : Xmm)
  | loadFloat (s : FloatSize) (dst : Xmm) (src : Mem)
  | storeFloat (s : FloatSize) (dst : Mem) (src : Xmm)
  | floatArith (op : FloatOp) (s : FloatSize) (dst src : Xmm)
  /-- Comparison that tells unordered operands apart. -/
  | ucomis (s : FloatSize) (a b : Xmm)
  | intToFloat (s : FloatSize) (w : Width) (dst : Xmm) (src : Gpr)
  /-- Truncates toward zero. -/
  | floatToInt (w : Width) (s : FloatSize) (dst : Gpr) (src : Xmm)
  /-- Change of size; `result` is the size afterwards. -/
  | resize (result : FloatSize) (dst src : Xmm)
  /-- Copy of bits into a float register. -/
  | movBits (w : Width) (dst : Xmm) (src : Gpr)
  | call (target : Gpr)
  | push (r : Gpr)
  | pop (r : Gpr)
  | ret
  /-- Undefined instruction; control never gets past it. -/
  | ud2
  | nop
  deriving DecidableEq, Repr

end JitBackend.Machine
