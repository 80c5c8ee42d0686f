import JitBackend.Buffer

namespace JitBackend

/-!
# Checking instructions

Whether an instruction fits the opcode table and the buffer it is about to join: the number,
origin and types of its operands, the kind of its payload, and the arguments of a call.

* `Instr.check` yields the first defect in a fixed order.
-/

namespace Instr

/-- Type of an operand, which has to be an earlier instruction of the same buffer. -/
def checkOperand (b : Buffer) (position : Nat) (h : Handle) : Except Defect Ty :=
  if h.buffer = b.id then
    match b.instrs[h.index]? with
    | some i => .ok i.result
    | none => .error (.lateOperand position h)
  else
    .error (.foreignOperand position h)

/-- Checks operands against their expected types, counting positions from `position`. -/
def checkOperands (b : Buffer) (position : Nat) : List (Handle × ValTy) → Except Defect Unit
  | [] => .ok ()
  | (h, expected) :: rest => do
    let found ← checkOperand b position h
    if found = .val expected then
      checkOperands b (position + 1) rest
    else
      .error (.operandType position h found (.val expected))

/-- Checks call arguments against a signature, counting positions from `position`. -/
def checkArgs (b : Buffer) (sig : Signature) (position : Nat) : List Handle → Except Defect Unit
  | [] => .ok ()
  | h :: rest => do
    let found ← checkOperand b position h
    if (sig.arg? position).map ArgKind.ty = some found then
      checkArgs b sig (position + 1) rest
    else
      .error (.argumentType position h found sig)

/-- Checks the target and the arguments of a call whose result has type `result`. -/
def checkCall (b : Buffer) (result : Ty) (site : CallSite) : Except Defect Unit := do
  let sig := site.callee.sig
  let count := site.args.length
  if count > maxArgs ∨ count ≠ sig.argCount then
    throw (.argumentCount count sig)
  if sig.ret.ty ≠ result then
    throw (.resultType sig)
  checkArgs b sig 0 site.args

/-- Requires as many operands as the opcode takes, without a hole among them. -/
def checkCount (i : Instr) : Except Defect Unit :=
  let count := i.operandList.length
  if count = i.opcode.arity ∧ (i.operands.slots.take count).all Option.isSome then
    .ok ()
  else
    .error (.operandCount i.opcode.arity count)

/-- Requires a constant of the type of the result. -/
def checkConstant (i : Instr) : Except Defect Unit :=
  match i.payload with
  | .const c => if .val c.ty = i.result then .ok () else .error (.constantType c.ty i.result)
  | _ => .ok ()

/-- Checks what only some payloads have. -/
def checkPayload (b : Buffer) (i : Instr) : Except Defect Unit :=
  match i.payload with
  | .call site => checkCall b i.result site
  | .target (some label) => (checkOperand b 0 label).map fun _ => ()
  | .table cells => if cells.isEmpty then .error .emptyTable else .ok ()
  | _ => .ok ()

/-- First defect of an instruction that is about to join the buffer. -/
def check (b : Buffer) (i : Instr) : Except Defect Unit := do
  i.checkCount
  checkOperands b 0 (i.operandList.zip i.opcode.operands)
  if i.payload.kind ≠ i.opcode.payloadKind then
    throw (.payloadKind i.payload.kind i.opcode.payloadKind)
  i.checkConstant
  i.checkPayload b

end Instr

end JitBackend
