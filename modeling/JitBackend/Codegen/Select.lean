import JitBackend.Codegen.Values

namespace JitBackend

/-!
# Instruction selection

The code for each instruction. Operands are brought into registers, the result gets a register
of its own, and the two-address instructions of the machine work on a copy of the first operand.
Labels, calls and jumps start over with empty registers.

* `Gen.instruction` emits the code for the instruction at a position.
-/

namespace Gen

open Machine (Emitter Cond AluOp)

/-- Operand `k` of an instruction; there has to be one. -/
def operand (ops : List Handle) (k : Nat) : Gen Handle :=
  Step.orFault .indexOutOfRange ops[k]?

/-- Value of an operand that is a constant of at most 32 bits. -/
def imm32Of (b : Buffer) (h : Handle) : Gen (Option (BitVec 32)) := do
  let i ← Step.liftFault (b.get h)
  return i.payload.const?.bind Const.imm32?

/-- Label in the emitted code that a jump goes to. -/
def labelOf (b : Buffer) (index : Nat) (target : Option Handle) : Gen Nat := do
  let labels := (← get).labels
  Step.orFail (.unknownBranch (b.handle index)) (target.bind fun h => labels[h.index]?.join)

/-- Label of the code that takes down the frame. -/
def epilogueLabel : Nat := 0

/-! ### Integer operations -/

/-- The second operand of an integer operation. -/
inductive Rhs where
  | imm (k : BitVec 32)
  | reg (r : Reg)

/-- The second operand as a constant if it is a small one, else in a register. -/
def useRhs (b : Buffer) (h : Handle) : Gen Rhs := do
  match ← imm32Of b h with
  | some k => return .imm k
  | none => return .reg (← useAny h)

/-- An integer operation with either kind of second operand. -/
def aluRhs (op : AluOp) (w : Width) (r : Reg) : Rhs → Gen Unit
  | .imm k => emit (Emitter.aluImm op w r k)
  | .reg s => emit (Emitter.alu op w r s)

/-- Addition, subtraction and bitwise operations. -/
def alu (b : Buffer) (index : Nat) (op : AluOp) (w : Width) (ops : List Handle) : Gen Unit := do
  let ra ← useAny (← operand ops 0)
  let rhs ← useRhs b (← operand ops 1)
  let rd ← defAny index
  emit (Emitter.mov w rd ra)
  aluRhs op w rd rhs
  finishUses ops
  define index rd

/-- Multiplication. -/
def multiply (b : Buffer) (index : Nat) (w : Width) (ops : List Handle) : Gen Unit := do
  let ra ← useAny (← operand ops 0)
  let right ← operand ops 1
  match ← imm32Of b right with
  | some k =>
    let rd ← defAny index
    emit (Emitter.imulImm w rd ra k)
    finishUses ops
    define index rd
  | none =>
    let rb ← useAny right
    let rd ← defAny index
    emit (Emitter.mov w rd ra)
    emit (Emitter.imul w rd rb)
    finishUses ops
    define index rd

/-- Signed division, whose operands and results have fixed registers. -/
def divide (index : Nat) (w : Width) (remainder : Bool) (ops : List Handle) : Gen Unit := do
  evict .rax
  evict .rdx
  let fixed := RegSet.ofList [.rax, .rdx]
  let ra ← useReg (← operand ops 0) fixed
  let rb ← useReg (← operand ops 1) fixed
  emit (Emitter.mov w .rax ra)
  emit (Emitter.idiv w rb)
  finishUses ops
  let rd := if remainder then Reg.rdx else Reg.rax
  registers (RegFile.assign rd index)
  count Stats.addRegister
  define index rd

/-- Shift by a constant or by the count register. -/
def shift (b : Buffer) (index : Nat) (op : ShiftOp) (w : Width) (ops : List Handle) : Gen Unit := do
  match ← imm32Of b (← operand ops 1) with
  | some k =>
    let ra ← useAny (← operand ops 0)
    let rd ← defAny index
    emit (Emitter.mov w rd ra)
    emit (Emitter.shiftImm op w rd (k.setWidth 8))
    finishUses ops
    define index rd
  | none =>
    evict .rcx
    let fixed := RegSet.ofList [.rcx]
    let ra ← useReg (← operand ops 0) fixed
    let rb ← useReg (← operand ops 1) fixed
    emit (Emitter.mov .w32 .rcx rb)
    let rd ← defReg index fixed
    emit (Emitter.mov w rd ra)
    emit (Emitter.shiftCl op w rd)
    finishUses ops
    define index rd

/-- Negation and complement. -/
def unary (index : Nat) (op : IntUnary) (w : Width) (ops : List Handle) : Gen Unit := do
  let ra ← useAny (← operand ops 0)
  let rd ← defAny index
  emit (Emitter.mov w rd ra)
  emit (Emitter.unary op w rd)
  finishUses ops
  define index rd

/-- Code for an integer operation of two operands. -/
def arith (b : Buffer) (index : Nat) (op : IntOp) (w : Width) (ops : List Handle) : Gen Unit :=
  match op with
  | .add => alu b index .add w ops
  | .sub => alu b index .sub w ops
  | .and => alu b index .and w ops
  | .or => alu b index .or w ops
  | .xor => alu b index .xor w ops
  | .mul => multiply b index w ops
  | .div => divide index w false ops
  | .rem => divide index w true ops

/-- Condition that a comparison sets. -/
def condOf : IntRel → Cond
  | .eq => .e
  | .lt => .l
  | .gt => .g
  | .le => .le
  | .ge => .ge
  | .ltu => .b
  | .gtu => .a
  | .leu => .be
  | .geu => .ae

/-- Integer comparison. -/
def compare (b : Buffer) (index : Nat) (rel : IntRel) (w : Width) (ops : List Handle) :
    Gen Unit := do
  let ra ← useAny (← operand ops 0)
  let rhs ← useRhs b (← operand ops 1)
  let rd ← defAny index
  aluRhs .cmp w ra rhs
  emit (Emitter.setcc (condOf rel) rd)
  emit (Emitter.movzxByte rd rd)
  finishUses ops
  define index rd

/-! ### Float operations -/

/-- Float arithmetic. -/
def floatArith (index : Nat) (op : FloatOp) (s : FloatSize) (ops : List Handle) : Gen Unit := do
  let ra ← useAny (← operand ops 0)
  let rb ← useAny (← operand ops 1)
  let rd ← defAny index
  emit (Emitter.movaps rd ra)
  emit (Emitter.floatArith op s rd rb)
  finishUses ops
  define index rd

/-- Puts the mask of the sign bit into the float scratch register. -/
def signMask : FloatSize → Gen Unit
  | .double => do
    emit (Emitter.movImm64 Convention.scratch (BitVec.intMin 64))
    emit (Emitter.movBits .w64 Convention.floatScratch Convention.scratch)
  | .single => do
    emit (Emitter.movImm32 Convention.scratch (BitVec.intMin 32))
    emit (Emitter.movBits .w32 Convention.floatScratch Convention.scratch)

/-- Float negation, which flips the sign bit. -/
def floatNeg (index : Nat) (s : FloatSize) (ops : List Handle) : Gen Unit := do
  let ra ← useAny (← operand ops 0)
  let rd ← defAny index
  emit (Emitter.movaps rd ra)
  signMask s
  emit (Emitter.xorps rd Convention.floatScratch)
  finishUses ops
  define index rd

/-- Float comparison into the low byte of a register. All relations are false for operands that
    are not ordered, so `less` compares the operands the other way round. -/
def floatRel (rel : FloatRel) (s : FloatSize) (rd ra rb : Reg) : Gen Unit := do
  match rel with
  | .eq =>
    emit (Emitter.ucomis s ra rb)
    emit (Emitter.setcc .e rd)
    emit (Emitter.setcc .np Convention.scratch)
    emit (Emitter.andByte rd Convention.scratch)
  | .gt =>
    emit (Emitter.ucomis s ra rb)
    emit (Emitter.setcc .a rd)
  | .ge =>
    emit (Emitter.ucomis s ra rb)
    emit (Emitter.setcc .ae rd)
  | .lt =>
    emit (Emitter.ucomis s rb ra)
    emit (Emitter.setcc .a rd)
  | .le =>
    emit (Emitter.ucomis s rb ra)
    emit (Emitter.setcc .ae rd)

/-- Float comparison. -/
def floatCompare (index : Nat) (rel : FloatRel) (s : FloatSize) (ops : List Handle) : Gen Unit := do
  let ra ← useAny (← operand ops 0)
  let rb ← useAny (← operand ops 1)
  let rd ← defAny index
  floatRel rel s rd ra rb
  emit (Emitter.movzxByte rd rd)
  finishUses ops
  define index rd

/-! ### Conversions and selection -/

/-- Signed integer to float, the rest of the register cleared. -/
def signedToFloat (s : FloatSize) (w : Width) (rd ra : Reg) : Gen Unit := do
  emit (Emitter.xorps rd rd)
  emit (Emitter.intToFloat s w rd ra)

/-- Unsigned 32-bit integer to float, by way of 64 bits. -/
def unsignedToFloat (s : FloatSize) (rd ra : Reg) : Gen Unit := do
  emit (Emitter.mov .w32 Convention.scratch ra)
  signedToFloat s .w64 rd Convention.scratch

/-- Conversion between registers. -/
def convertReg (c : Conversion) (rd ra : Reg) : Gen Unit :=
  match c with
  | .i2q => emit (Emitter.movsxd rd ra)
  | .ui2uq | .q2i => emit (Emitter.mov .w32 rd ra)
  | .i2d => signedToFloat .double .w32 rd ra
  | .q2d => signedToFloat .double .w64 rd ra
  | .i2f => signedToFloat .single .w32 rd ra
  | .ui2d => unsignedToFloat .double rd ra
  | .ui2f => unsignedToFloat .single rd ra
  | .d2i => emit (Emitter.floatToInt .w32 .double rd ra)
  | .d2q => emit (Emitter.floatToInt .w64 .double rd ra)
  | .f2i => emit (Emitter.floatToInt .w32 .single rd ra)
  | .f2d => emit (Emitter.resize .double rd ra)
  | .d2f => emit (Emitter.resize .single rd ra)

/-- Conversion. -/
def convert (index : Nat) (c : Conversion) (ops : List Handle) : Gen Unit := do
  let ra ← useAny (← operand ops 0)
  let rd ← defAny index
  convertReg c rd ra
  finishUses ops
  define index rd

/-- Choice between two registers by a third. Floats are chosen by a jump. -/
def selectReg (t : ValTy) (rd rc yes no : Reg) : Gen Unit := do
  match t with
  | .float _ =>
    let skip ← emit Emitter.newLabel
    emit (Emitter.movaps rd no)
    emit (Emitter.test .w32 rc rc)
    emit (Emitter.jcc .e skip)
    emit (Emitter.movaps rd yes)
    emit (Emitter.bind skip)
  | .int w =>
    emit (Emitter.mov w rd no)
    emit (Emitter.test .w32 rc rc)
    emit (Emitter.cmovne w rd yes)

/-- Selection. -/
def select (index : Nat) (t : ValTy) (ops : List Handle) : Gen Unit := do
  let rc ← useAny (← operand ops 0)
  let yes ← useAny (← operand ops 1)
  let no ← useAny (← operand ops 2)
  let rd ← defAny index
  selectReg t rd rc yes no
  finishUses ops
  define index rd

/-! ### Memory -/

/-- Load between registers. -/
def loadReg (k : LoadKind) (rd base : Reg) (disp : BitVec 32) : Gen Unit :=
  match k with
  | .int8 => emit (Emitter.load .b8 true rd base disp)
  | .uint8 => emit (Emitter.load .b8 false rd base disp)
  | .int16 => emit (Emitter.load .b16 true rd base disp)
  | .uint16 => emit (Emitter.load .b16 false rd base disp)
  | .value .int32 => emit (Emitter.load .b32 false rd base disp)
  | .value .int64 => emit (Emitter.load .b64 false rd base disp)
  | .value (.float s) => emit (Emitter.loadFloat s rd base disp)
  | .widen => do
    emit (Emitter.loadFloat .single rd base disp)
    emit (Emitter.resize .double rd rd)

/-- Load. -/
def load (index : Nat) (k : LoadKind) (disp : BitVec 32) (ops : List Handle) : Gen Unit := do
  let base ← useAny (← operand ops 0)
  let rd ← defAny index
  loadReg k rd base disp
  finishUses ops
  define index rd

/-- Store between registers. -/
def storeReg (k : StoreKind) (value base : Reg) (disp : BitVec 32) : Gen Unit :=
  match k with
  | .int8 => emit (Emitter.store .b8 base disp value)
  | .int16 => emit (Emitter.store .b16 base disp value)
  | .value .int32 => emit (Emitter.store .b32 base disp value)
  | .value .int64 => emit (Emitter.store .b64 base disp value)
  | .value (.float s) => emit (Emitter.storeFloat s base disp value)

/-- Store. -/
def store (k : StoreKind) (disp : BitVec 32) (ops : List Handle) : Gen Unit := do
  let value ← useAny (← operand ops 0)
  let base ← useAny (← operand ops 1)
  storeReg k value base disp
  finishUses ops

/-! ### Calls -/

/-- Puts one argument of a call into its place. -/
def passArgument (h : Handle) (t : Ty) : Place → Gen Unit
  | .register r => fill h.index r
  | .stack offset => do
    let r := if t.isFloat then Convention.floatScratch else Convention.scratch
    fill h.index r
    storeTo t .rsp offset r
  | .nowhere => pure ()

/-- Puts the arguments of a call into their places, first to last. -/
def passArguments (a : Assigner) : List Handle → Gen Unit
  | [] => pure ()
  | h :: rest => do
    let t := (← valueOf h.index).ty
    let (p, a) := a.argument t
    passArgument h t p.place
    passArguments a rest

/-- Register of the result of a call. -/
def resultReg (t : Ty) : Reg :=
  match (Assigner.fresh.result t).1.place with
  | .register r => r
  | _ => if t.isFloat then .xmm0 else .rax

/-- Call. -/
def call (index : Nat) (result : Ty) (site : CallSite) : Gen Unit := do
  syncAll
  clearAll
  report (.conventionPicked site.callee.abi)
  passArguments .fresh site.args
  emit (Emitter.movImm64 Convention.scratch site.callee.address.word)
  emit (Emitter.call Convention.scratch)
  finishUses site.args
  count Stats.addCall
  report (.callLowered site.callee.name)
  if result ≠ .void then
    registers (RegFile.assign (resultReg result) index)
    define index (resultReg result)

/-! ### Control flow -/

/-- Label: all values are at home here. -/
def label (b : Buffer) (index : Nat) : Gen Unit := do
  syncAll
  clearAll
  let l ← labelOf b index (some (b.handle index))
  emit (Emitter.bind l)

/-- Jump. -/
def jump (b : Buffer) (index : Nat) (target : Option Handle) : Gen Unit := do
  let l ← labelOf b index target
  syncAll
  emit (Emitter.jmp l)
  clearAll

/-- Conditional jump. -/
def branch (b : Buffer) (index : Nat) (sense : Bool) (target : Option Handle) (ops : List Handle) :
    Gen Unit := do
  let l ← labelOf b index target
  let rc ← useAny (← operand ops 0)
  syncAll
  emit (Emitter.test .w32 rc rc)
  emit (Emitter.jcc (if sense then .ne else .e) l)
  finishUses ops

/-- Compares the index with the entries of a table from number `i` on. -/
def tableEntries (b : Buffer) (index : Nat) (r : Reg) (i : Nat) : List (Option Handle) → Gen Unit
  | [] => pure ()
  | target :: rest => do
    let l ← labelOf b index target
    emit (Emitter.aluImm .cmp .w32 r (BitVec.ofNat 32 i))
    emit (Emitter.jcc .e l)
    tableEntries b index r (i + 1) rest

/-- Jump table; an index outside of it traps. -/
def jumpTable (b : Buffer) (index : Nat) (payload : Payload) (ops : List Handle) : Gen Unit := do
  match payload with
  | .table cells =>
    let r ← useAny (← operand ops 0)
    syncAll
    tableEntries b index r 0 (Cell.labels cells).toList
    emit Emitter.ud2
    finishUses ops
    clearAll
  | _ => Step.fail (.unknownBranch (b.handle index))

/-- Moves a value to where results are returned. -/
def moveResult (t : ValTy) (r : Reg) : Gen Unit :=
  match t with
  | .int w => emit (Emitter.mov w .rax r)
  | .float _ => if r = .xmm0 then pure () else emit (Emitter.movaps .xmm0 r)

/-- Return. Values go home first, since the result may overwrite one of them. -/
def ret (t : ValTy) (ops : List Handle) : Gen Unit := do
  let r ← useAny (← operand ops 0)
  syncAll
  moveResult t r
  finishUses ops
  emit (Emitter.jmp epilogueLabel)
  clearAll

/-- Exit through a guard, whose record is the result. -/
def guardExit (payload : Payload) : Gen Unit := do
  match payload with
  | .guard g =>
    syncAll
    let stub ← emit Emitter.newLabel
    emit (Emitter.bind stub)
    emit (Emitter.movImm64 .rax g.record)
    emit (Emitter.jmp epilogueLabel)
    modify fun s => { s with exits := s.exits.push (g, stub) }
    clearAll
  | _ => pure ()

/-- Code for the instruction at a position. -/
def instruction (b : Buffer) (index : Nat) (i : Instr) : Gen Unit :=
  let ops := i.operandList
  match i.opcode with
  | .start | .param | .comment | .alloc | .imm _ => pure ()
  | .live _ => finishUses ops
  | .label => label b index
  | .exit => guardExit i.payload
  | .load k => load index k i.displacement ops
  | .store k => store k i.displacement ops
  | .call result =>
    match i.payload with
    | .call site => call index result site
    | _ => Step.fail (.allocation (.noCallSite index))
  | .jump => jump b index i.target?
  | .branch sense => branch b index sense i.target? ops
  | .jumpTable => jumpTable b index i.payload ops
  | .ret t => ret t ops
  | .arith w op => arith b index op w ops
  | .shift w op => shift b index op w ops
  | .unary w op => unary index op w ops
  | .floatArith s op => floatArith index op s ops
  | .floatNeg s => floatNeg index s ops
  | .compare w rel => compare b index rel w ops
  | .floatCompare s rel => floatCompare index rel s ops
  | .convert c => convert index c ops
  | .select t => select index t ops

end Gen

end JitBackend
