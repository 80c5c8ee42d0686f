import JitBackend.Handle
import JitBackend.Opcode
import JitBackend.Signature

namespace JitBackend

/-!
# Errors of building a function

Requests that a function under construction refuses. The offending instruction is not appended,
and building goes on.
-/

/-- A refused request. -/
inductive BuildError where
  | tooManyParameters (index max : Nat)
  | tooManyArguments (callee : String) (count max : Nat)
  | unknownFunction (callee : String)
  | notCallable (callee : String)
  | notACall (op : Opcode)
  | signatureMismatch (callee : String) (declared deduced : Signature)
  | foreignInstruction (h : Handle)
  | notABranch (h : Handle)
  | notALabel (h : Handle)
  | noTableEntry (h : Handle) (index : Nat)
  deriving DecidableEq, Repr

/-- Wording of an error. -/
def BuildError.message : BuildError → String
  | .tooManyParameters index max =>
    s!"parameter index {index} exceeds the maximum of {max} parameters"
  | .tooManyArguments callee count max =>
    s!"call to '{callee}' passes {count} arguments, at most {max} are supported"
  | .unknownFunction callee => s!"unknown function '{callee}'"
  | .notCallable callee => s!"function '{callee}' has no callable entry point"
  | .notACall op => s!"{op.name} is not a call opcode"
  | .signatureMismatch callee declared deduced =>
    s!"signature mismatch calling '{callee}': declared {declared.text}, "
      ++ s!"call site uses {deduced.text}"
  | .foreignInstruction h => s!"{h.name} does not belong to this function"
  | .notABranch h => s!"{h.name} is not a branch"
  | .notALabel h => s!"{h.name} is not a label"
  | .noTableEntry h index => s!"jump table {h.name} has no entry {index}"

end JitBackend
