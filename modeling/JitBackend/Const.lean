import JitBackend.Ty

namespace JitBackend

/-!
# Constants

A constant carried by an instruction. Floats are kept as their bit patterns, so that every
pattern of a not-a-number value passes through unchanged.

* `Const.bits` is the pattern of the constant, filled up with zeros to 64 bits;
* `Const.int?` reads an integer constant, sign-extended to 64 bits;
* `Const.ofInt` builds the integer constant of a width.
-/

/-- A constant of one of the four value types. -/
inductive Const where
  | int32 (v : BitVec 32)
  | int64 (v : BitVec 64)
  | float64 (pattern : BitVec 64)
  | float32 (pattern : BitVec 32)
  deriving DecidableEq, Repr

namespace Const

/-- Type of the constant. -/
def ty : Const → ValTy
  | .int32 _ => .int32
  | .int64 _ => .int64
  | .float64 _ => .float64
  | .float32 _ => .float32

/-- Bit pattern of the constant, zero-extended to 64 bits. -/
def bits : Const → BitVec 64
  | .int32 v => v.setWidth 64
  | .int64 v => v
  | .float64 p => p
  | .float32 p => p.setWidth 64

/-- Value of an integer constant, sign-extended to 64 bits. -/
def int? : Const → Option (BitVec 64)
  | .int32 v => some (v.signExtend 64)
  | .int64 v => some v
  | _ => none

/-- The constant of width `w` with the given value. -/
def ofInt : (w : Width) → BitVec w.bits → Const
  | .w32, v => .int32 v
  | .w64, v => .int64 v

/-- The 32-bit constant 1 or 0 that a comparison yields. -/
def ofBool (b : Bool) : Const :=
  .int32 (if b then 1 else 0)

/-- The integer constant as a sign-extended 32-bit operand, if it fits into one. -/
def imm32? : Const → Option (BitVec 32)
  | .int32 v => some v
  | .int64 v => if (v.setWidth 32).signExtend 64 = v then some (v.setWidth 32) else none
  | _ => none

end Const

end JitBackend
