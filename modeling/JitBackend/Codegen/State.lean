import JitBackend.Codegen.Error
import JitBackend.Frame
import JitBackend.Session
import JitBackend.ValueTable

namespace JitBackend

/-!
# State of code generation

Everything that changes while code is generated for one function.

* `CodeState` is the state, `Gen` a computation over it;
* `Gen.emit`, `Gen.registers` and `Gen.frame` run a computation on a part of the state.
-/

/-- State of code generation for one function. -/
structure CodeState where
  emitter : Machine.Emitter
  regs : RegFile
  values : ValueTable
  frame : Frame
  /-- Label in the emitted code of each label of the function, by position. -/
  labels : Array (Option Nat)
  /-- Registers locked for the instruction at hand. -/
  pinned : List Reg
  /-- Guards with the label of their exit code, in order. -/
  exits : Array (Guard × Nat)
  stats : Stats
  log : Log

/-- A step of code generation. -/
abbrev Gen := Step AsmError CodeState

namespace Gen

/-- Emits code. -/
def emit {α : Type} (x : Machine.Emit α) : Gen α :=
  Step.within CodeState.emitter (fun e s => { s with emitter := e }) .encoding x

/-- Works on the register file. -/
def registers {α : Type} (x : Step RegError RegFile α) : Gen α :=
  Step.within CodeState.regs (fun r s => { s with regs := r })
    (fun e => .allocation (.register e)) x

/-- Works on the frame. -/
def frame {α : Type} (f : Frame → Except Fault (α × Frame)) : Gen α := do
  let (a, frame) ← Step.liftFault (f (← get).frame)
  modify fun s => { s with frame }
  return a

/-- Adds a report. -/
def report (e : Event) : Gen Unit :=
  modify fun s => { s with log := s.log.push e }

/-- Changes the counters. -/
def count (f : Stats → Stats) : Gen Unit :=
  modify fun s => { s with stats := f s.stats }

end Gen

end JitBackend
