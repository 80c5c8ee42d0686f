import JitBackend.Machine.Emitter
import JitBackend.RegFile

namespace JitBackend

/-!
# Errors of code generation

Why a finished function has no code.
-/

/-- Why a value could not be placed. -/
inductive PlaceError where
  | register (e : RegError)
  /-- The instruction at this position produces no value. -/
  | noValue (index : Nat)
  /-- The call at this position has no call site. -/
  | noCallSite (index : Nat)
  deriving DecidableEq, Repr

/-- Wording of an error. -/
def PlaceError.message : PlaceError → String
  | .register e => e.message
  | .noValue index => s!"ins{index} has no value"
  | .noCallSite index => s!"ins{index} is a call without a call site"

/-- Why code generation failed. -/
inductive AsmError where
  | branchTooFar (size : Nat)
  | stackFull (required limit : Nat)
  | unknownBranch (h : Handle)
  | allocation (reason : PlaceError)
  | encoding (e : Machine.EncodeError)
  deriving DecidableEq, Repr

/-- Wording of an error. -/
def AsmError.message : AsmError → String
  | .branchTooFar size => s!"BranchTooFar: {size} bytes of code exceed the rel32 branch range"
  | .stackFull required limit => s!"StackFull: frame needs {required} bytes, limit is {limit}"
  | .unknownBranch h => s!"UnknownBranch: {h.name} has no label target"
  | .allocation reason => s!"Register allocation failed: {reason.message}"
  | .encoding e => s!"Encoding failed: {e.message}"

end JitBackend
