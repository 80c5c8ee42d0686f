import JitBackend.Const

namespace JitBackend

/-!
# Integer arithmetic

The integer operations and their values on words of any width. Addition, subtraction,
multiplication and negation wrap; shift counts are taken modulo the width; division truncates
toward zero and traps on a zero divisor and on the one quotient that does not fit.

* `IntOp.apply` is `none` exactly where the operation traps;
* `ShiftOp.apply`, `IntUnary.apply` and `IntRel.holds` are total.
-/

/-- Integer operations of two operands of the same width. -/
inductive IntOp where
  | add | sub | mul | div | rem | and | or | xor
  deriving DecidableEq, Repr

/-- Shifts. The count is a 32-bit operand. -/
inductive ShiftOp where
  | shl | sar | shr
  deriving DecidableEq, Repr

/-- Integer operations of one operand. -/
inductive IntUnary where
  | neg | not
  deriving DecidableEq, Repr

/-- Integer comparisons; the ones with a final `u` read their operands as unsigned. -/
inductive IntRel where
  | eq | lt | gt | le | ge | ltu | gtu | leu | geu
  deriving DecidableEq, Repr

namespace IntOp

/-- All operations in table order. -/
def all : List IntOp := [.add, .sub, .mul, .div, .rem, .and, .or, .xor]

/-- Stem of the opcode names. -/
def stem : IntOp → String
  | .add => "add"
  | .sub => "sub"
  | .mul => "mul"
  | .div => "div"
  | .rem => "mod"
  | .and => "and"
  | .or => "or"
  | .xor => "xor"

/-- Whether the operands may be exchanged. -/
def commutes : IntOp → Bool
  | .add | .mul | .and | .or | .xor => true
  | .sub | .div | .rem => false

/-- Whether signed division of `a` by `b` has no representable quotient. -/
def divTraps {n : Nat} (a b : BitVec n) : Bool :=
  b == 0#n || (a == BitVec.intMin n && b == BitVec.allOnes n)

/-- Value of the operation, `none` where it traps. -/
def apply {n : Nat} (op : IntOp) (a b : BitVec n) : Option (BitVec n) :=
  match op with
  | .add => some (a + b)
  | .sub => some (a - b)
  | .mul => some (a * b)
  | .div => if divTraps a b then none else some (a.sdiv b)
  | .rem => if divTraps a b then none else some (a.srem b)
  | .and => some (a &&& b)
  | .or => some (a ||| b)
  | .xor => some (a ^^^ b)

end IntOp

namespace ShiftOp

/-- All shifts in table order. -/
def all : List ShiftOp := [.shl, .sar, .shr]

/-- Stem of the opcode names. -/
def stem : ShiftOp → String
  | .shl => "lsh"
  | .sar => "rsh"
  | .shr => "rshu"

/-- Value of the shift; only the count modulo the width matters. -/
def apply {n m : Nat} (op : ShiftOp) (a : BitVec n) (count : BitVec m) : BitVec n :=
  match op with
  | .shl => a <<< (count.toNat % n)
  | .sar => a.sshiftRight (count.toNat % n)
  | .shr => a >>> (count.toNat % n)

end ShiftOp

namespace IntUnary

/-- Both operations in table order. -/
def all : List IntUnary := [.neg, .not]

/-- Stem of the opcode names. -/
def stem : IntUnary → String
  | .neg => "neg"
  | .not => "not"

/-- Value of the operation. -/
def apply {n : Nat} (op : IntUnary) (a : BitVec n) : BitVec n :=
  match op with
  | .neg => -a
  | .not => ~~~a

end IntUnary

namespace IntRel

/-- All comparisons in table order. -/
def all : List IntRel := [.eq, .lt, .gt, .le, .ge, .ltu, .gtu, .leu, .geu]

/-- Stem of the opcode names. -/
def stem : IntRel → String
  | .eq => "eq"
  | .lt => "lt"
  | .gt => "gt"
  | .le => "le"
  | .ge => "ge"
  | .ltu => "ltu"
  | .gtu => "gtu"
  | .leu => "leu"
  | .geu => "geu"

/-- Whether every value stands in this relation to itself. -/
def isReflexive : IntRel → Bool
  | .eq | .le | .ge | .leu | .geu => true
  | .lt | .gt | .ltu | .gtu => false

/-- Whether `a` stands in the relation to `b`. -/
def holds {n : Nat} (rel : IntRel) (a b : BitVec n) : Bool :=
  match rel with
  | .eq => a == b
  | .lt => a.slt b
  | .gt => b.slt a
  | .le => a.sle b
  | .ge => b.sle a
  | .ltu => a.ult b
  | .gtu => b.ult a
  | .leu => a.ule b
  | .geu => b.ule a

end IntRel

end JitBackend
