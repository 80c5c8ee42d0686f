import JitBackend.Instr

namespace JitBackend

/-!
# Faults

Two ways for an operation to stop short. An *error* is part of an operation's interface and has
a type of its own for each of them. A *fault* is a broken precondition: an index out of range, a
handle of another function, arithmetic that overflows, an instruction that the checker refuses.
Whatever was changed before a fault stays changed.

* `Defect` says what is wrong with an instruction, `Fault` why an operation stopped;
* `Stop` is either an error or a fault, `Step` a computation over a state that may stop.
-/

/-- What is wrong with an instruction. -/
inductive Defect where
  | operandCount (expected found : Nat)
  | foreignOperand (position : Nat) (h : Handle)
  | lateOperand (position : Nat) (h : Handle)
  | operandType (position : Nat) (h : Handle) (found expected : Ty)
  | payloadKind (found expected : PayloadKind)
  | constantType (found : ValTy) (result : Ty)
  | argumentCount (found : Nat) (sig : Signature)
  | resultType (sig : Signature)
  | argumentType (position : Nat) (h : Handle) (found : Ty) (sig : Signature)
  | emptyTable
  deriving DecidableEq, Repr

/-- Wording of a defect. -/
def Defect.message : Defect → String
  | .operandCount expected found => s!"expected {expected} operands, got {found}"
  | .foreignOperand position h => s!"operand {position} ({h.name}) belongs to another function"
  | .lateOperand position h => s!"operand {position} ({h.name}) does not precede it"
  | .operandType position h found expected =>
    s!"operand {position} ({h.name}) has type {found.name}, expected {expected.name}"
  | .payloadKind found expected => s!"payload {found.name} where {expected.name} is required"
  | .constantType found result => s!"immediate of type {found.name} for a {result.name} result"
  | .argumentCount found sig => s!"{found} arguments for signature {sig.text}"
  | .resultType sig => s!"signature {sig.text} returns the wrong type"
  | .argumentType position h found sig =>
    s!"argument {position} ({h.name}) has type {found.name}, signature is {sig.text}"
  | .emptyTable => "jump table without entries"

/-- A broken precondition. -/
inductive Fault where
  /-- A checking stage, named by its position, refused an instruction. -/
  | invalid (position : String) (op : Opcode) (defect : Defect)
  | tooManyRegisters
  | tooManyBanks
  | indexOutOfRange
  | foreignHandle (h : Handle)
  | overflow
  | divisionByZero
  /-- The process was told to give up. -/
  | aborted
  deriving DecidableEq, Repr

/-- Wording of a fault. -/
def Fault.message : Fault → String
  | .invalid position op defect =>
    s!"LIR validation failed at {position}: {op.name}: {defect.message}"
  | .tooManyRegisters => "Too many registers per bank"
  | .tooManyBanks => "Too many register banks"
  | .indexOutOfRange => "index out of range"
  | .foreignHandle h => s!"{h.name} belongs to another buffer"
  | .overflow => "arithmetic overflow"
  | .divisionByZero => "division by zero"
  | .aborted => "aborted"

/-- Why a computation stopped short. -/
inductive Stop (ε : Type) where
  | error (e : ε)
  | fault (f : Fault)
  deriving DecidableEq, Repr

/-- The same stop, its error seen through `f`. -/
def Stop.map {ε δ : Type} (f : ε → δ) : Stop ε → Stop δ
  | .error e => .error (f e)
  | .fault x => .fault x

/-- A computation over the state `σ` that may stop with an error or a fault. The state reached
    before the stop is kept. -/
abbrev Step (ε σ : Type) : Type → Type :=
  EStateM (Stop ε) σ

namespace Step

variable {ε σ α : Type}

/-- Stops with an error. -/
def fail (e : ε) : Step ε σ α :=
  throw (.error e)

/-- Stops with a fault. -/
def fault (f : Fault) : Step ε σ α :=
  throw (.fault f)

/-- The value, or a fault if there is none. -/
def orFault (f : Fault) : Option α → Step ε σ α
  | some a => pure a
  | none => fault f

/-- The value, or an error if there is none. -/
def orFail (e : ε) : Option α → Step ε σ α
  | some a => pure a
  | none => fail e

/-- Continues with a value or stops with a fault. -/
def liftFault : Except Fault α → Step ε σ α
  | .ok a => pure a
  | .error f => fault f

/-- Continues with a value or stops with an error. -/
def liftError : Except ε α → Step ε σ α
  | .ok a => pure a
  | .error e => fail e

/-- Runs a computation on a part of the state, its errors seen through `f`. -/
def within {δ τ : Type} (part : σ → τ) (put : τ → σ → σ) (f : ε → δ) (x : Step ε τ α) :
    Step δ σ α := fun s =>
  match x (part s) with
  | .ok a t => .ok a (put t s)
  | .error e t => .error (e.map f) (put t s)

end Step

end JitBackend
