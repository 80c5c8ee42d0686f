import JitBackend.Buffer

namespace JitBackend

/-!
# Simplifying integer instructions

Constant folding and integer identities. Only instructions that read and produce integers are
looked at: identities such as `x * 0 = 0` do not hold for floats. Operations that trap are left
alone, so that they trap when the code runs.

* `Plan` says what is to be done with an instruction;
* `Instr.simplify` makes the plan from the instruction and the buffer alone.
-/

/-- What is to be done with an instruction. -/
inductive Plan where
  /-- Pass this instruction on. It differs from the one asked about at most in the order of its
      operands. -/
  | keep (i : Instr)
  /-- An existing instruction has the same value. -/
  | existing (h : Handle)
  /-- Pass on another instruction of the same value. -/
  | replace (i : Instr)
  /-- Pass on the constant `count`, then a shift of `a` to the left by it. -/
  | shiftLeft (w : Width) (a : Handle) (count : Nat)
  deriving DecidableEq, Repr

namespace Simplify

/-- Value of an operand that is an integer constant, sign-extended. -/
def constOf? (b : Buffer) (h : Handle) : Option (BitVec 64) :=
  (b.get? h).bind Instr.int?

/-- Exponent of a constant that is a power of two above one. -/
def powerOfTwo? (c : BitVec 64) : Option Nat :=
  if 1 < c.toInt ∧ c.toNat = 2 ^ c.toNat.log2 then some c.toNat.log2 else none

/-- The integer constant zero of a width. -/
def zero (w : Width) : Instr :=
  .const (.ofInt w 0)

/-! ### One operand -/

/-- Value of a unary operation on a constant. -/
def foldUnary (op : Opcode) (c : BitVec 64) : Option Const :=
  match op with
  | .unary w o => some (.ofInt w (o.apply (c.setWidth w.bits)))
  | .convert .i2q => some (.int64 ((c.setWidth 32).signExtend 64))
  | .convert .ui2uq => some (.int64 ((c.setWidth 32).setWidth 64))
  | .convert .q2i => some (.int32 (c.setWidth 32))
  | _ => none

/-- Whether `op` takes back what `inner` did to its operand. -/
def undoes (op inner : Opcode) : Bool :=
  match op, inner with
  | .unary w o, .unary w' o' => w == w' && o == o'
  | .convert .q2i, .convert .i2q => true
  | .convert .q2i, .convert .ui2uq => true
  | _, _ => false

/-- Plan for an instruction of one operand. -/
def planUnary (b : Buffer) (i : Instr) : Except Fault Plan :=
  match i.operands.fst with
  | none => .ok (.keep i)
  | some x =>
    match constOf? b x with
    | some c =>
      match foldUnary i.opcode c with
      | some v => .ok (.replace (.const v))
      | none => .ok (.keep i)
    | none => do
      let inner ← b.get x
      if undoes i.opcode inner.opcode then
        match inner.operands.fst with
        | some y => .ok (.existing y)
        | none => .ok (.keep i)
      else
        .ok (.keep i)

/-! ### Two operands -/

/-- Value of a binary operation on two constants, `none` where it traps. -/
def foldBinary (op : Opcode) (x y : BitVec 64) : Option Const :=
  match op with
  | .arith w o => (o.apply (x.setWidth w.bits) (y.setWidth w.bits)).map (.ofInt w)
  | .shift w o => some (.ofInt w (o.apply (x.setWidth w.bits) (y.setWidth 32)))
  | .compare w rel => some (.ofBool (rel.holds (x.setWidth w.bits) (y.setWidth w.bits)))
  | _ => none

/-- Identities for an operation whose operands are the same instruction `a`. -/
def planSame (op : Opcode) (a : Handle) : Option Plan :=
  match op with
  | .arith w .sub | .arith w .xor => some (.replace (zero w))
  | .arith _ .and | .arith _ .or => some (.existing a)
  | .compare _ rel => some (.replace (.const (.ofBool rel.isReflexive)))
  | _ => none

/-- Identities for an operation on `a` and the constant `c`, which `b` produces. -/
def planRight (op : Opcode) (a b : Handle) (c : BitVec 64) : Option Plan :=
  match op with
  | .arith _ .add | .arith _ .sub | .arith _ .xor | .shift _ _ =>
    if c = 0 then some (.existing a) else none
  | .arith _ .or =>
    if c = 0 then some (.existing a) else if c = -1 then some (.existing b) else none
  | .arith _ .and =>
    if c = 0 then some (.existing b) else if c = -1 then some (.existing a) else none
  | .arith w .mul =>
    if c = 0 then some (.existing b)
    else if c = 1 then some (.existing a)
    else (powerOfTwo? c).map (.shiftLeft w a)
  | .arith _ .div => if c = 1 then some (.existing a) else none
  | .arith w .rem => if c = 1 then some (.replace (zero w)) else none
  | _ => none

/-- Identities for an operation on a constant zero, which `a` produces, and `b`. -/
def planLeftZero (op : Opcode) (a b : Handle) : Option Plan :=
  match op with
  | .arith w .sub => some (.replace (.plain (.unary w .neg) [b]))
  | .shift _ _ => some (.existing a)
  | _ => none

/-- The first identity that applies to `op` on `a` and `b`, whose constants are `x` and `y`. -/
def planOperands (op : Opcode) (a b : Handle) (x y : Option (BitVec 64)) : Option Plan :=
  (do let v ← foldBinary op (← x) (← y); some (.replace (.const v)))
    <|> (if a = b then planSame op a else none)
    <|> (do planRight op a b (← y))
    <|> (if x = some 0 then planLeftZero op a b else none)

/-- Plan for an instruction of two operands. A constant on the left of a commutative operation
    changes places with the other operand. -/
def planBinary (buf : Buffer) (i : Instr) : Plan :=
  match i.operands.fst, i.operands.snd with
  | some a, some b =>
    let x := constOf? buf a
    let y := constOf? buf b
    if i.opcode.isCommutative ∧ x.isSome ∧ y.isNone then
      (planOperands i.opcode b a y x).getD (.keep { i with operands := ⟨some b, some a, none⟩ })
    else
      (planOperands i.opcode a b x y).getD (.keep i)
  | _, _ => .keep i

/-! ### Selection -/

/-- Plan for a selection. -/
def planSelect (b : Buffer) (i : Instr) : Plan :=
  match i.operands.fst, i.operands.snd, i.operands.thd with
  | some cond, some yes, some no =>
    match constOf? b cond with
    | some c => .existing (if c = 0 then no else yes)
    | none => if yes = no then .existing yes else .keep i
  | _, _, _ => .keep i

end Simplify

/-- What is to be done with an instruction that is about to join the buffer. -/
def Instr.simplify (b : Buffer) (i : Instr) : Except Fault Plan :=
  match i.opcode with
  | .unary _ _ | .convert .i2q | .convert .ui2uq | .convert .q2i => Simplify.planUnary b i
  | .arith _ _ | .shift _ _ | .compare _ _ => .ok (Simplify.planBinary b i)
  | .select (.int _) => .ok (Simplify.planSelect b i)
  | _ => .ok (.keep i)

end JitBackend
