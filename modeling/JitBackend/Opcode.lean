import JitBackend.Arith

namespace JitBackend

/-!
# Opcodes

The opcode table. Every opcode has a printed name, a result type, the types of its operands,
the kind of payload it expects, and a class that says how it may be optimised.

* `Opcode.result`, `Opcode.operands`, `Opcode.payloadKind`, `Opcode.effect` are the columns;
* `Opcode.all` lists the table in order, `Opcode.ofName?` looks a row up by its printed name.
-/

/-- Which payload an opcode carries. -/
inductive PayloadKind where
  | none | imm | disp | param | alloc | target | table | call | guard | comment
  deriving DecidableEq, Repr

/-- How an opcode may be optimised. -/
inductive OpClass where
  /-- Free of effects: duplicates are shared, unused ones dropped. -/
  | pure
  /-- Reads memory: dropped when unused, never shared. -/
  | load
  /-- Reserves a stack area: dropped when unused, never shared. -/
  | alloc
  /-- Observable: always kept, in order. -/
  | effect
  deriving DecidableEq, Repr

/-- Float operations of two operands. -/
inductive FloatOp where
  | add | sub | mul | div
  deriving DecidableEq, Repr

/-- Float comparisons; each is false when an operand is not a number. -/
inductive FloatRel where
  | eq | lt | gt | le | ge
  deriving DecidableEq, Repr

/-- Memory reads. Narrow integers are extended to 32 bits, `widen` reads a 32-bit float as a
    64-bit one. -/
inductive LoadKind where
  | int8 | uint8 | int16 | uint16
  | value (t : ValTy)
  | widen
  deriving DecidableEq, Repr

/-- Memory writes; the narrow ones keep the low bits of a 32-bit integer. -/
inductive StoreKind where
  | int8 | int16
  | value (t : ValTy)
  deriving DecidableEq, Repr

/-- Conversions between value types; a leading `u` reads the operand as unsigned. -/
inductive Conversion where
  | i2q | ui2uq | q2i | i2d | ui2d | q2d | d2i | d2q | i2f | ui2f | f2d | d2f | f2i
  deriving DecidableEq, Repr

/-- Operation codes of linear code. -/
inductive Opcode where
  /-- First instruction of a function. -/
  | start
  /-- A 64-bit parameter. -/
  | param
  | label
  | comment
  /-- Keeps a value alive up to this point. -/
  | live (t : ValTy)
  /-- Address of a reserved stack area. -/
  | alloc
  /-- Leaves the function through a guard. -/
  | exit
  | imm (t : ValTy)
  | load (k : LoadKind)
  | store (k : StoreKind)
  | call (ret : Ty)
  | jump
  /-- Jumps if the condition is non-zero (`true`) or zero (`false`). -/
  | branch (sense : Bool)
  | jumpTable
  | ret (t : ValTy)
  | arith (w : Width) (op : IntOp)
  | shift (w : Width) (op : ShiftOp)
  | unary (w : Width) (op : IntUnary)
  | floatArith (s : FloatSize) (op : FloatOp)
  | floatNeg (s : FloatSize)
  | compare (w : Width) (rel : IntRel)
  | floatCompare (s : FloatSize) (rel : FloatRel)
  | convert (c : Conversion)
  /-- Condition, value if it is non-zero, value if it is zero. -/
  | select (t : ValTy)
  deriving DecidableEq, Repr

namespace FloatOp

/-- All operations in table order. -/
def all : List FloatOp := [.add, .sub, .mul, .div]

/-- Stem of the opcode names. -/
def stem : FloatOp → String
  | .add => "add"
  | .sub => "sub"
  | .mul => "mul"
  | .div => "div"

end FloatOp

namespace FloatRel

/-- All comparisons in table order. -/
def all : List FloatRel := [.eq, .lt, .gt, .le, .ge]

/-- Stem of the opcode names. -/
def stem : FloatRel → String
  | .eq => "eq"
  | .lt => "lt"
  | .gt => "gt"
  | .le => "le"
  | .ge => "ge"

end FloatRel

namespace LoadKind

/-- All reads in table order. -/
def all : List LoadKind :=
  [.int8, .uint8, .int16, .uint16, .value .int32, .value .int64, .value .float64,
    .value .float32, .widen]

/-- Opcode name. -/
def name : LoadKind → String
  | .int8 => "ldc2i"
  | .uint8 => "lduc2ui"
  | .int16 => "lds2i"
  | .uint16 => "ldus2ui"
  | .value t => "ld" ++ t.letter
  | .widen => "ldf2d"

/-- Type of the value read. -/
def result : LoadKind → ValTy
  | .int8 | .uint8 | .int16 | .uint16 => .int32
  | .value t => t
  | .widen => .float64

end LoadKind

namespace StoreKind

/-- All writes in table order. -/
def all : List StoreKind :=
  [.int8, .int16, .value .int32, .value .int64, .value .float64, .value .float32]

/-- Opcode name. -/
def name : StoreKind → String
  | .int8 => "sti2c"
  | .int16 => "sti2s"
  | .value t => "st" ++ t.letter

/-- Type of the value written. -/
def operand : StoreKind → ValTy
  | .int8 | .int16 => .int32
  | .value t => t

end StoreKind

namespace Conversion

/-- All conversions in table order. -/
def all : List Conversion :=
  [.i2q, .ui2uq, .q2i, .i2d, .ui2d, .q2d, .d2i, .d2q, .i2f, .ui2f, .f2d, .d2f, .f2i]

/-- Opcode name. -/
def name : Conversion → String
  | .i2q => "i2q"
  | .ui2uq => "ui2uq"
  | .q2i => "q2i"
  | .i2d => "i2d"
  | .ui2d => "ui2d"
  | .q2d => "q2d"
  | .d2i => "d2i"
  | .d2q => "d2q"
  | .i2f => "i2f"
  | .ui2f => "ui2f"
  | .f2d => "f2d"
  | .d2f => "d2f"
  | .f2i => "f2i"

/-- Type converted from. -/
def source : Conversion → ValTy
  | .i2q | .ui2uq | .i2d | .ui2d | .i2f | .ui2f => .int32
  | .q2i | .q2d => .int64
  | .d2i | .d2q | .d2f => .float64
  | .f2d | .f2i => .float32

/-- Type converted to. -/
def target : Conversion → ValTy
  | .q2i | .d2i | .f2i => .int32
  | .i2q | .ui2uq | .d2q => .int64
  | .i2d | .ui2d | .q2d | .f2d => .float64
  | .i2f | .ui2f | .d2f => .float32

end Conversion

namespace Opcode

/-- Printed name. -/
def name : Opcode → String
  | .start => "start"
  | .param => "paramq"
  | .label => "label"
  | .comment => "comment"
  | .live t => "live" ++ t.letter
  | .alloc => "allocp"
  | .exit => "x"
  | .imm t => "imm" ++ t.letter
  | .load k => k.name
  | .store k => k.name
  | .call t => "call" ++ t.letter
  | .jump => "j"
  | .branch true => "jt"
  | .branch false => "jf"
  | .jumpTable => "jtbl"
  | .ret t => "ret" ++ t.letter
  | .arith w op => op.stem ++ w.letter
  | .shift w op => op.stem ++ w.letter
  | .unary w op => op.stem ++ w.letter
  | .floatArith s op => op.stem ++ s.letter
  | .floatNeg s => "neg" ++ s.letter
  | .compare w rel => rel.stem ++ w.letter
  | .floatCompare s rel => rel.stem ++ s.letter
  | .convert c => c.name
  | .select t => "cmov" ++ t.letter

/-- Type of the result. -/
def result : Opcode → Ty
  | .start | .label | .comment | .live _ | .exit | .store _ => .void
  | .jump | .branch _ | .jumpTable | .ret _ => .void
  | .param | .alloc => .val .int64
  | .imm t | .select t => .val t
  | .load k => .val k.result
  | .call t => t
  | .arith w _ | .shift w _ | .unary w _ => .val (.int w)
  | .floatArith s _ | .floatNeg s => .val (.float s)
  | .compare _ _ | .floatCompare _ _ => .val .int32
  | .convert c => .val c.target

/-- Types of the operands, in order. -/
def operands : Opcode → List ValTy
  | .start | .param | .label | .comment | .alloc | .exit | .imm _ | .call _ | .jump => []
  | .live t | .ret t => [t]
  | .load _ => [.int64]
  | .store k => [k.operand, .int64]
  | .branch _ | .jumpTable => [.int32]
  | .arith w _ | .compare w _ => [.int w, .int w]
  | .shift w _ => [.int w, .int32]
  | .unary w _ => [.int w]
  | .floatArith s _ | .floatCompare s _ => [.float s, .float s]
  | .floatNeg s => [.float s]
  | .convert c => [c.source]
  | .select t => [.int32, t, t]

/-- Number of operands. -/
def arity (op : Opcode) : Nat :=
  op.operands.length

/-- Kind of payload the opcode expects. -/
def payloadKind : Opcode → PayloadKind
  | .param => .param
  | .comment => .comment
  | .alloc => .alloc
  | .exit => .guard
  | .imm _ => .imm
  | .load _ | .store _ => .disp
  | .call _ => .call
  | .jump | .branch _ => .target
  | .jumpTable => .table
  | _ => .none

/-- How the opcode may be optimised. -/
def effect : Opcode → OpClass
  | .start | .param | .label | .comment | .live _ | .exit | .store _ | .call _ => .effect
  | .jump | .branch _ | .jumpTable | .ret _ => .effect
  | .alloc => .alloc
  | .load _ => .load
  | .imm _ | .arith _ _ | .shift _ _ | .unary _ _ | .floatArith _ _ | .floatNeg _ => .pure
  | .compare _ _ | .floatCompare _ _ | .convert _ | .select _ => .pure

/-- Whether duplicates are shared. -/
def isShareable (op : Opcode) : Bool :=
  op.effect == .pure

/-- Whether the instruction may be dropped when its result is not used. -/
def isRemovable (op : Opcode) : Bool :=
  op.effect != .effect

/-- Whether the opcode produces a constant. -/
def isImmediate : Opcode → Bool
  | .imm _ => true
  | _ => false

/-- Whether the opcode is a branch with a single target. -/
def isBranch : Opcode → Bool
  | .jump | .branch _ => true
  | _ => false

/-- Whether the operands may be exchanged. -/
def isCommutative : Opcode → Bool
  | .arith _ op => op.commutes
  | .floatArith _ op => op == .add || op == .mul
  | .compare _ rel => rel == .eq
  | .floatCompare _ rel => rel == .eq
  | _ => false

/-- Result type of a call opcode. -/
def callResult? : Opcode → Option Ty
  | .call t => some t
  | _ => none

/-- The arithmetic rows of an integer width. -/
def integerRows (w : Width) : List Opcode :=
  [IntOp.all.map (arith w), ShiftOp.all.map (shift w), IntUnary.all.map (unary w)].flatten

/-- The arithmetic rows of a float size. -/
def floatRows (s : FloatSize) : List Opcode :=
  (FloatOp.all.map (floatArith s)).concat (floatNeg s)

/-- The table in order, family by family. -/
def families : List (List Opcode) :=
  [[start, param, label, comment], ValTy.all.map live, [alloc, exit], ValTy.all.map imm,
    LoadKind.all.map load, StoreKind.all.map store, Ty.all.map call,
    [jump, branch true, branch false, jumpTable], ValTy.all.map ret,
    integerRows .w32, integerRows .w64, floatRows .double, floatRows .single,
    IntRel.all.map (compare .w32), IntRel.all.map (compare .w64),
    FloatRel.all.map (floatCompare .double), FloatRel.all.map (floatCompare .single),
    Conversion.all.map convert, ValTy.all.map select]

/-- The whole table, in order. -/
def all : List Opcode :=
  families.flatten

/-- The opcode with the given printed name. -/
def ofName? (s : String) : Option Opcode :=
  all.find? fun op => op.name == s

end Opcode

end JitBackend
