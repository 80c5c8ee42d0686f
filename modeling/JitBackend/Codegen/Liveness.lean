import JitBackend.Buffer

namespace JitBackend

/-!
# Liveness

Which instructions are needed and how often each value is used. The buffer is walked from its
end: an instruction without effects is needed exactly if a needed instruction after it reads its
value.

* `Instr.uses` lists the values that an instruction reads;
* `Liveness.ofBuffer` is the analysis of a buffer.
-/

/-- The values that an instruction reads, call arguments included. -/
def Instr.uses (i : Instr) : List Handle :=
  i.operandList ++ i.callArgs

/-- Whether the instruction may be dropped if nothing reads its value. -/
def Instr.isRemovable (i : Instr) : Bool :=
  match i.payload with
  | .call site => !site.callee.hasEffects
  | _ => i.opcode.isRemovable

/-- Result of the analysis, by position. -/
structure Liveness where
  live : Array Bool
  /-- Number of uses by needed instructions. -/
  uses : Array Nat
  deriving DecidableEq, Repr

namespace Liveness

/-- Whether the instruction at a position is needed. -/
def isLive (l : Liveness) (index : Nat) : Bool :=
  l.live[index]?.getD false

/-- Number of uses of the value at a position. -/
def usesOf (l : Liveness) (index : Nat) : Nat :=
  l.uses[index]?.getD 0

/-- Counts one use; a position past the end is a fault. -/
def countUse (uses : Array Nat) (h : Handle) : Except Fault (Array Nat) :=
  if h.index < uses.size then .ok (uses.modify h.index (· + 1)) else .error .indexOutOfRange

/-- Marks an instruction as needed and counts what it reads. -/
def mark (l : Liveness) (index : Nat) (i : Instr) : Except Fault Liveness := do
  return ⟨l.live.setIfInBounds index true, ← i.uses.foldlM countUse l.uses⟩

/-- Walks the instructions from position `k` down to the first. -/
def backward (instrs : Array Instr) : (k : Nat) → Liveness → Except Fault Liveness
  | 0, l => .ok l
  | k + 1, l =>
    match instrs[k]? with
    | none => .error .indexOutOfRange
    | some i =>
      if l.usesOf k = 0 ∧ i.isRemovable then
        backward instrs k l
      else do
        backward instrs k (← l.mark k i)

/-- Liveness of all instructions of a buffer. -/
def ofBuffer (b : Buffer) : Except Fault Liveness :=
  backward b.instrs b.size ⟨.replicate b.size false, .replicate b.size 0⟩

/-- Number of needed instructions. -/
def count (l : Liveness) : Nat :=
  l.live.countP id

end Liveness

end JitBackend
