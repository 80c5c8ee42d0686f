import JitBackend.Eval
import Mathlib.Logic.Function.Basic

namespace JitBackend

/-!
# Interpreting linear code

What a buffer means: the instructions run in program order over an environment that holds the
values computed so far, and over a world that answers loads, stores and calls. Constants denote
themselves wherever they are read. Arithmetic on floats is not interpreted.

* `FloatModel` — the float operations, `World` — everything else that is outside of the code;
* `Interp.pureValue` — the value of an instruction without effects;
* `Interp.step` — one instruction, `Interp.run` — a number of them;
* `Interp.Event` — what can be observed of a run, `Interp.Outcome` — how it ends.
-/

/-- Number of bits of a float size. -/
def FloatSize.bits : FloatSize → Nat
  | .single => 32
  | .double => 64

/-- Outcome of comparing two floats. -/
inductive FloatOrder where
  | less | equal | greater | unordered
  deriving DecidableEq, Repr

/-- The outcome with the operands exchanged. -/
def FloatOrder.swap : FloatOrder → FloatOrder
  | .less => .greater
  | .greater => .less
  | o => o

/-- Whether a comparison holds; none holds of operands that are not ordered. -/
def FloatRel.holds : FloatRel → FloatOrder → Bool
  | .eq, o => o == .equal
  | .lt, o => o == .less
  | .gt, o => o == .greater
  | .le, o => o == .less || o == .equal
  | .ge, o => o == .greater || o == .equal

/-- Float arithmetic, conversions and comparisons, on bit patterns. Exchanging the operands of a
    comparison exchanges its outcome; nothing else is known of them. -/
structure FloatModel where
  arith : FloatOp → (s : FloatSize) → BitVec s.bits → BitVec s.bits → BitVec s.bits
  order : (s : FloatSize) → BitVec s.bits → BitVec s.bits → FloatOrder
  ofInt : (s : FloatSize) → (w : Width) → BitVec w.bits → BitVec s.bits
  toInt : (w : Width) → (s : FloatSize) → BitVec s.bits → BitVec w.bits
  widen : BitVec 32 → BitVec 64
  narrow : BitVec 64 → BitVec 32
  order_swap : ∀ s x y, order s y x = (order s x y).swap

namespace FloatSize

variable (s : FloatSize)

/-- The pattern of infinity. Beyond it are the patterns that are not numbers. -/
def infinity : FloatSize → Nat
  | .single => 0x7F800000
  | .double => 0x7FF0000000000000

/-- The pattern without its sign. -/
def magnitude (x : BitVec s.bits) : Nat :=
  (x.setWidth (s.bits - 1)).toNat

/-- The place of a number among all of them; the two zeros have the same. -/
def rank (x : BitVec s.bits) : Int :=
  if x.msb then -s.magnitude x else s.magnitude x

/-- The order of two patterns. -/
def order (x y : BitVec s.bits) : FloatOrder :=
  if s.infinity < s.magnitude x ∨ s.infinity < s.magnitude y then .unordered
  else if s.rank x < s.rank y then .less
  else if s.rank y < s.rank x then .greater
  else .equal

end FloatSize

/-- Floats that are only compared: all operations that would compute one yield zero. -/
def FloatModel.comparing : FloatModel where
  arith _ s _ _ := 0#s.bits
  order := FloatSize.order
  ofInt s _ _ := 0#s.bits
  toInt w _ _ := 0#w.bits
  widen _ := 0
  narrow _ := 0
  order_swap s x y := by
    unfold FloatSize.order
    by_cases hnumber : s.infinity < s.magnitude x ∨ s.infinity < s.magnitude y
    · rw [if_pos hnumber, if_pos hnumber.symm]
      rfl
    · rw [if_neg hnumber, if_neg fun h => hnumber h.symm]
      rcases Int.lt_trichotomy (s.rank x) (s.rank y) with h | h | h
      · rw [if_neg (by omega), if_pos h, if_pos h]
        rfl
      · rw [if_neg (by omega), if_neg (by omega), if_neg (by omega), if_neg (by omega)]
        rfl
      · rw [if_pos h, if_neg (by omega), if_pos h]
        rfl

namespace Const

/-- The pattern of a float constant of size `s`. -/
def pattern? : (s : FloatSize) → Const → Option (BitVec s.bits)
  | .single, .float32 p => some p
  | .double, .float64 p => some p
  | _, _ => none

/-- The float constant of size `s` with the given pattern. -/
def ofPattern : (s : FloatSize) → BitVec s.bits → Const
  | .single, p => .float32 p
  | .double, p => .float64 p

/-- The value of a type whose bits are the low bits of a word. -/
def ofBits : ValTy → BitVec 64 → Const
  | .int32, b => .int32 (b.setWidth 32)
  | .int64, b => .int64 b
  | .float64, b => .float64 b
  | .float32, b => .float32 (b.setWidth 32)

end Const

/-- What linear code runs in. Loads, stores and calls work on a state of type `M`, which stands
    for memory and for everything that callees do. -/
structure World (M : Type) where
  float : FloatModel
  /-- Parameters, by position. -/
  param : Nat → BitVec 64
  /-- Addresses of the stack areas, by number. -/
  area : Nat → BitVec 64
  load : M → LoadKind → BitVec 64 → BitVec 64 × M
  store : M → StoreKind → BitVec 64 → BitVec 64 → M
  call : M → Callee → Ty → List Const → BitVec 64 × M

namespace Interp

variable {M : Type}

/-- What can be observed of one instruction. -/
inductive Event where
  | label
  | load (k : LoadKind) (address : BitVec 64) (value : Const)
  | store (k : StoreKind) (address : BitVec 64) (value : Const)
  | call (callee : Callee) (args : List Const) (result : Option Const)
  | jump
  | branch (taken : Bool)
  | table (index : BitVec 32)
  deriving DecidableEq, Repr

/-- How a run ends. -/
inductive Outcome where
  | ret (v : Const)
  | exit (g : Guard)
  /-- A division without a quotient, or an index outside of a jump table. -/
  | trap
  /-- Control got past the last instruction. -/
  | endOfCode
  /-- The code is malformed at this point. -/
  | stuck
  deriving DecidableEq, Repr

/-- State of a run. Events are listed with the positions of their instructions. -/
structure State (M : Type) where
  pc : Nat
  env : Nat → Option Const
  mem : M
  trace : List (Nat × Event)

/-- Result of a step. -/
inductive Next (M : Type) where
  | go (s : State M)
  | halt (o : Outcome)

namespace State

/-- The state at the start of a run. -/
def initial (m : M) : State M :=
  ⟨0, fun _ => none, m, []⟩

/-- Goes on with the next instruction. -/
def advance (s : State M) : State M :=
  { s with pc := s.pc + 1 }

/-- Sets the value of the instruction at hand. -/
def define (s : State M) (v : Const) : State M :=
  { s with env := Function.update s.env s.pc (some v) }

/-- Notes an event of the instruction at hand. -/
def note (s : State M) (e : Event) : State M :=
  { s with trace := s.trace ++ [(s.pc, e)] }

end State

/-- Number of a stack area: the areas are counted in program order. -/
def areaNumber (b : Buffer) (pc : Nat) : Nat :=
  (b.instrs.toList.take pc).countP fun i => i.opcode = .alloc

/-- Value of an operand. -/
def operand? (b : Buffer) (env : Nat → Option Const) (h : Handle) : Option Const :=
  match b.get? h with
  | some i =>
    match i.opcode, i.payload with
    | .imm _, .const c => some c
    | _, _ => env h.index
  | none => none

/-- Values of the operands of an instruction. -/
def operands? (b : Buffer) (env : Nat → Option Const) (i : Instr) : Option (List Const) :=
  i.operandList.mapM (operand? b env)

/-- Value of a conversion. -/
def convertValue (f : FloatModel) (c : Conversion) (v : Const) : Option Const :=
  match c, v with
  | .i2q, .int32 x => some (.int64 (x.signExtend 64))
  | .ui2uq, .int32 x => some (.int64 (x.setWidth 64))
  | .q2i, .int64 x => some (.int32 (x.setWidth 32))
  | .i2d, .int32 x => some (.float64 (f.ofInt .double .w32 x))
  | .ui2d, .int32 x => some (.float64 (f.ofInt .double .w64 (x.setWidth 64)))
  | .q2d, .int64 x => some (.float64 (f.ofInt .double .w64 x))
  | .d2i, .float64 x => some (.int32 (f.toInt .w32 .double x))
  | .d2q, .float64 x => some (.int64 (f.toInt .w64 .double x))
  | .i2f, .int32 x => some (.float32 (f.ofInt .single .w32 x))
  | .ui2f, .int32 x => some (.float32 (f.ofInt .single .w64 (x.setWidth 64)))
  | .f2d, .float32 x => some (.float64 (f.widen x))
  | .d2f, .float64 x => some (.float32 (f.narrow x))
  | .f2i, .float32 x => some (.int32 (f.toInt .w32 .single x))
  | _, _ => none

/-- Value of an operation without effects, `none` where it traps or the operands do not fit. -/
def pureValue (f : FloatModel) (op : Opcode) (args : List Const) : Option Const :=
  match op, args with
  | .arith w o, [x, y] => do return .ofInt w (← o.apply (← x.word? w) (← y.word? w))
  | .shift w o, [x, y] => do return .ofInt w (o.apply (← x.word? w) (← y.word? .w32))
  | .unary w o, [x] => do return .ofInt w (o.apply (← x.word? w))
  | .compare w rel, [x, y] => do return .ofBool (rel.holds (← x.word? w) (← y.word? w))
  | .floatArith s o, [x, y] => do
    return .ofPattern s (f.arith o s (← x.pattern? s) (← y.pattern? s))
  | .floatNeg s, [x] => do return .ofPattern s ((← x.pattern? s) ^^^ BitVec.intMin s.bits)
  | .floatCompare s rel, [x, y] => do
    return .ofBool (rel.holds (f.order s (← x.pattern? s) (← y.pattern? s)))
  | .convert c, [x] => convertValue f c x
  | .select _, [c, x, y] => do return if (← c.word? .w32) = 0 then y else x
  | _, _ => none

/-- Whether an operation on these operands is a division without a quotient. -/
def divisionTraps (op : Opcode) (args : List Const) : Bool :=
  match op, args with
  | .arith w o, [x, y] =>
    match x.word? w, y.word? w with
    | some x, some y => (o.apply x y).isNone
    | _, _ => false
  | _, _ => false

/-- Goes on with the label that a jump is bound to. -/
def goto (b : Buffer) (s : State M) (target : Option Handle) : Next M :=
  match target with
  | some t =>
    if (b.get? t).map Instr.opcode = some .label then .go { s with pc := t.index }
    else .halt .stuck
  | none => .halt .stuck

/-- Sets the value of the instruction at hand and goes on. -/
def finishWith (s : State M) (v : Const) : Next M :=
  .go (s.define v).advance

/-- A load. -/
def stepLoad (w : World M) (s : State M) (k : LoadKind) (disp : BitVec 32) : List Const → Next M
  | [.int64 base] =>
    let address := base + disp.signExtend 64
    let (bits, mem) := w.load s.mem k address
    let v := Const.ofBits k.result bits
    finishWith ({ s with mem }.note (.load k address v)) v
  | _ => .halt .stuck

/-- A store. -/
def stepStore (w : World M) (s : State M) (k : StoreKind) (disp : BitVec 32) : List Const → Next M
  | [v, .int64 base] =>
    let address := base + disp.signExtend 64
    .go ({ s with mem := w.store s.mem k address v.bits }.note (.store k address v)).advance
  | _ => .halt .stuck

/-- A call. -/
def stepCall (w : World M) (s : State M) (t : Ty) (callee : Callee) (args : List Const) : Next M :=
  let (bits, mem) := w.call s.mem callee t args
  match t with
  | .void => .go ({ s with mem }.note (.call callee args none)).advance
  | .val t =>
    let v := Const.ofBits t bits
    finishWith ({ s with mem }.note (.call callee args (some v))) v

/-- A conditional jump. -/
def stepBranch (b : Buffer) (s : State M) (sense : Bool) (target : Option Handle) :
    List Const → Next M
  | [.int32 c] =>
    if (c ≠ 0) = sense then goto b (s.note (.branch true)) target
    else .go (s.note (.branch false)).advance
  | _ => .halt .stuck

/-- A jump through a table; an index outside of it traps. -/
def stepTable (b : Buffer) (s : State M) (labels : Array (Option Handle)) : List Const → Next M
  | [.int32 index] =>
    match labels[index.toNat]? with
    | some target => goto b (s.note (.table index)) target
    | none => .halt .trap
  | _ => .halt .stuck

/-- An operation without effects. -/
def stepPure (f : FloatModel) (s : State M) (op : Opcode) (args : List Const) : Next M :=
  match pureValue f op args with
  | some v => finishWith s v
  | none => if divisionTraps op args then .halt .trap else .halt .stuck

/-- One instruction whose operands have the given values. -/
def stepInstr (w : World M) (b : Buffer) (s : State M) (i : Instr) (args : List Const) : Next M :=
  match i.opcode, i.payload with
  | .start, _ | .comment, _ | .live _, _ => .go s.advance
  | .label, _ => .go (s.note .label).advance
  | .param, .param k => finishWith s (.int64 (w.param k.toNat))
  | .alloc, _ => finishWith s (.int64 (w.area (areaNumber b s.pc)))
  | .imm _, .const c => finishWith s c
  | .load k, _ => stepLoad w s k i.displacement args
  | .store k, _ => stepStore w s k i.displacement args
  | .call t, .call site =>
    match site.args.mapM (operand? b s.env) with
    | some values => stepCall w s t site.callee values
    | none => .halt .stuck
  | .jump, _ => goto b (s.note .jump) i.target?
  | .branch sense, _ => stepBranch b s sense i.target? args
  | .jumpTable, .table cells => stepTable b s (Cell.labels cells) args
  | .ret _, _ =>
    match args with
    | [v] => .halt (.ret v)
    | _ => .halt .stuck
  | .exit, .guard g => .halt (.exit g)
  | .param, _ | .imm _, _ | .call _, _ | .jumpTable, _ | .exit, _ => .halt .stuck
  | op, _ => stepPure w.float s op args

/-- One instruction. -/
def step (w : World M) (b : Buffer) (s : State M) : Next M :=
  match b.instrs[s.pc]? with
  | none => .halt .endOfCode
  | some i =>
    match operands? b s.env i with
    | some args => stepInstr w b s i args
    | none => .halt .stuck

/-- A number of instructions; a run that has ended stays where it is. -/
def run (w : World M) (b : Buffer) : Nat → State M → State M × Option Outcome
  | 0, s => (s, none)
  | n + 1, s =>
    match step w b s with
    | .go s' => run w b n s'
    | .halt o => (s, some o)

end Interp

end JitBackend
