import JitBackend.Context

namespace JitBackend

/-!
# Evaluating functions

What a function over integers returns, computed from its instructions. Values are constants,
control flow follows labels, and calls run other functions of the context. Instructions that
touch memory or floats are not evaluated.

* `Eval.value?` is the value of one instruction without effects;
* `Eval.run` runs a buffer for a bounded number of steps, `Context.eval` a function by name.
-/

/-- The word of an integer constant of width `w`. -/
def Const.word? : (w : Width) → Const → Option (BitVec w.bits)
  | .w32, .int32 v => some v
  | .w64, .int64 v => some v
  | _, _ => none

namespace Eval

/-- Values of the instructions that have been run, by position. -/
abbrev Env := Array (Option Const)

/-- Value of operand `k` of an instruction. -/
def operand? (env : Env) (i : Instr) (k : Nat) : Option Const := do
  env[(← i.operands.get? k).index]?.join

/-- Word of operand `k` of an instruction. -/
def word? (env : Env) (i : Instr) (w : Width) (k : Nat) : Option (BitVec w.bits) := do
  (← operand? env i k).word? w

/-- Value of an instruction without effects. -/
def value? (env : Env) (i : Instr) : Option Const :=
  match i.opcode with
  | .imm _ => i.payload.const?
  | .arith w op => do return .ofInt w (← op.apply (← word? env i w 0) (← word? env i w 1))
  | .shift w op => do return .ofInt w (op.apply (← word? env i w 0) (← word? env i .w32 1))
  | .unary w op => do return .ofInt w (op.apply (← word? env i w 0))
  | .compare w rel => do return .ofBool (rel.holds (← word? env i w 0) (← word? env i w 1))
  | .convert .i2q => do return .int64 ((← word? env i .w32 0).signExtend 64)
  | .convert .ui2uq => do return .int64 ((← word? env i .w32 0).setWidth 64)
  | .convert .q2i => do return .int32 ((← word? env i .w64 0).setWidth 32)
  | .select _ => do
    if (← word? env i .w32 0) = 0 then operand? env i 2 else operand? env i 1
  | _ => none

/-- The function whose code is at an address. -/
def installed? (c : Context) (a : Address) : Option Buffer :=
  (c.registry.fragments.find? fun f => f.callee.map Callee.address == some a).bind Fragment.buffer

/-- Runs a buffer from position `pc` on; yields the value returned. -/
def run (c : Context) (b : Buffer) (args : List Const) :
    (steps : Nat) → (pc : Nat) → Env → Option Const
  | 0, _, _ => none
  | steps + 1, pc, env => do
    let i ← b.instrs[pc]?
    let next := fun v : Option Const => run c b args steps (pc + 1) (env.setIfInBounds pc v)
    let goto := fun h : Option Handle => do run c b args steps (← h).index env
    match i.opcode with
    | .start | .label | .comment | .live _ => next none
    | .param =>
      match i.payload with
      | .param k => next args[k.toNat]?
      | _ => none
    | .call _ =>
      match i.payload with
      | .call site =>
        let callee ← installed? c site.callee.address
        let values ← site.args.mapM fun h => env[h.index]?.join
        next (some (← run c callee values steps 0 (.replicate callee.size none)))
      | _ => none
    | .jump => goto i.target?
    | .branch sense =>
      if ((← word? env i .w32 0) ≠ 0) = sense then goto i.target? else next none
    | .jumpTable =>
      match i.payload with
      | .table cells => goto ((Cell.labels cells)[(← word? env i .w32 0).toNat]?.join)
      | _ => none
    | .ret _ => operand? env i 0
    | _ => next (some (← value? env i))

end Eval

/-- What the function with a name returns for 64-bit arguments. -/
def Context.eval (c : Context) (name : String) (args : List (BitVec 64)) (steps : Nat) :
    Option Const := do
  let _ ← c.entry? name
  let b ← (← c.fragment? name).buffer
  Eval.run c b (args.map .int64) steps 0 (.replicate b.size none)

end JitBackend
