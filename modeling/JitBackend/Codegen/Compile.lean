import JitBackend.Codegen.Homes
import JitBackend.Codegen.Select

namespace JitBackend

/-!
# Compiling a function

From a finished buffer to machine code: liveness, homes, the frame, then the code of the needed
instructions in order.

* `compile` yields the code with the offsets of the guard exits;
* `Account` is what it adds to besides: counters and reports, also when it fails.
-/

/-- Machine code of one function. -/
structure Assembly where
  code : List Machine.Byte
  /-- Guards with the offset of their exit code. -/
  exits : List (Guard × Nat)
  /-- Bytes taken from the stack pointer after the pushes. -/
  frameSize : Nat

/-- Counters and reports. -/
structure Account where
  stats : Stats
  log : Log

namespace Gen

open Machine (Emitter)

/-- Writes the parameters that come in registers to their slots. -/
def storeParam (b : Buffer) (h : Handle) : Gen Unit := do
  match (← Step.liftFault (b.get h)).payload with
  | .param i =>
    let slot := ((← get).values.get? h.index).bind fun v => v.home.slot?
    match Convention.intArgs[i.toNat]?, slot with
    | some r, some offset => storeTo (.val .int64) .rbp offset r
    | _, _ => pure ()
  | _ => pure ()

/-- Sets up the frame and the parameters. -/
def entry (b : Buffer) : Gen Unit := do
  let f := (← get).frame
  emit (Emitter.prologue f.saved f.size)
  b.paramList.forM (storeParam b)

/-- Code of the needed instructions in order. -/
def body (b : Buffer) (l : Liveness) : Gen Unit :=
  (List.range b.size).forM fun index =>
    if l.isLive index then do
      let i ← Step.liftFault (b.instrAt index)
      instruction b index i
      count (·.addInstruction i.opcode.name)
    else
      pure ()

/-- Takes down the frame. -/
def exitPath : Gen Unit := do
  emit (Emitter.bind epilogueLabel)
  emit (Emitter.epilogue (← get).frame.saved)

/-- Offset of the exit code of a guard. -/
def exitOffset (code : Machine.Code) (exit : Guard × Nat) : Gen (Guard × Nat) := do
  let offset ← Step.orFail (.encoding .invalidLabel) (code.labelOffset? exit.2)
  return (exit.1, offset)

/-- The bytes. -/
def finish [Machine.BlockEncoder] : Gen Assembly := do
  let s ← get
  let code ← Step.liftError (s.emitter.assemble.mapError .encoding)
  if 2 ^ 31 ≤ code.bytes.length then
    Step.fail (.branchTooFar code.bytes.length)
  return ⟨code.bytes, ← s.exits.toList.mapM (exitOffset code), s.frame.size⟩

/-- All of code generation; frames are at most `maxFrame` bytes. -/
def function [Machine.BlockEncoder] (b : Buffer) (maxFrame : Nat) : Gen Assembly := do
  let _ ← emit Emitter.newLabel
  let l ← Step.liftFault (Liveness.ofBuffer b)
  assignHomes b l
  layFrame b l maxFrame
  entry b
  body b l
  exitPath
  finish

end Gen

/-- Registers before the first instruction: two banks of sixteen, all free. -/
def RegFile.initial : RegFile where
  perBank := 16
  banks := 2
  allocatable := Convention.allocatable
  used := .empty
  locked := .empty
  clocks := .replicate maxBanks 0
  owners := .replicate 32 none
  locks := .replicate 32 0

/-- State before code generation. -/
def CodeState.initial (b : Buffer) (a : Account) : CodeState where
  emitter := .empty
  regs := .initial
  values := .empty b.size
  frame := .initial
  labels := .replicate b.size none
  pinned := []
  exits := #[]
  stats := a.stats
  log := a.log

/-- Generates code for a buffer. Counters and reports are kept also if that fails. -/
def compile [Machine.BlockEncoder] (b : Buffer) (maxFrame : Nat) :
    Step AsmError Account Assembly :=
  Step.within (CodeState.initial b) (fun s _ => ⟨s.stats, s.log⟩) id (Gen.function b maxFrame)

end JitBackend
