import JitBackend.Instr

namespace JitBackend

/-!
# Shared instructions

The pure instructions seen so far, by everything that determines their value. A label starts a
new region: computed values are forgotten there, constants are kept.

* `ShareTable.find?` and `ShareTable.insert` look a key up and add it;
* `ShareTable.clearRegion` is what a label does.
-/

/-- What determines the value of a pure instruction. -/
structure ShareKey where
  opcode : Opcode
  operands : Operands
  bits : BitVec 64
  deriving DecidableEq, Repr

/-- Key of an instruction. -/
def Instr.shareKey (i : Instr) : ShareKey :=
  ⟨i.opcode, i.operands, i.payload.bits⟩

/-- Keys with the instruction that stands for them. -/
structure ShareTable where
  entries : List (ShareKey × Handle)
  deriving DecidableEq, Repr

namespace ShareTable

/-- The table before the first instruction. -/
def empty : ShareTable := ⟨[]⟩

/-- The instruction that stands for a key. -/
def find? (t : ShareTable) (k : ShareKey) : Option Handle :=
  t.entries.lookup k

/-- Adds a key that is not in the table. -/
def insert (t : ShareTable) (k : ShareKey) (h : Handle) : ShareTable :=
  ⟨(k, h) :: t.entries⟩

/-- Forgets all but the constants. -/
def clearRegion (t : ShareTable) : ShareTable :=
  ⟨t.entries.filter fun e => e.1.opcode.isImmediate⟩

end ShareTable

end JitBackend
