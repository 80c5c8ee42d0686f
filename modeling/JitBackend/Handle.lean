namespace JitBackend

/-!
# Instruction handles

A handle names an instruction by its position in the buffer of one function. It carries the
number of that buffer, so a handle of another function is told apart instead of silently naming
a different instruction.
-/

/-- Names the instruction at position `index` of the buffer numbered `buffer`. -/
structure Handle where
  buffer : Nat
  index : Nat
  deriving DecidableEq, Repr, Hashable

/-- Spelling in listings and messages; the buffer does not show. -/
def Handle.name (h : Handle) : String :=
  "ins" ++ toString h.index

end JitBackend
