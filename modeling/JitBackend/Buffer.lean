import JitBackend.BuildError
import JitBackend.Fault

namespace JitBackend

/-!
# Instruction buffers

The instructions of one function in program order. Instructions are only ever appended; the one
thing that changes later is the target of a branch or of a jump-table entry, which is how
forward jumps are made. A jump-table entry changes for all instructions that share it.

* `Buffer.append` adds an instruction and yields its handle;
* `Buffer.get?` and `Buffer.get` look an instruction up, the latter faulting on a bad handle;
* `Buffer.setTarget` and `Buffer.setTableTarget` bind jumps to labels;
* `Buffer.foreignOperand?` finds a reference that points outside the buffer.
-/

/-- Largest number of parameters of a function. -/
def maxParams : Nat := 8

/-- The instructions of one function. -/
structure Buffer where
  id : Nat
  instrs : Array Instr
  /-- The instruction last appended for each parameter position. -/
  params : Vector (Option Handle) maxParams
  /-- Number of instructions appended with a call site. -/
  calls : Nat
  /-- Number of instructions appended with a guard. -/
  guards : Nat
  deriving DecidableEq, Repr

namespace Buffer

/-- The empty buffer with number `id`. -/
def empty (id : Nat) : Buffer :=
  ⟨id, #[], .replicate maxParams none, 0, 0⟩

/-- Number of instructions. -/
def size (b : Buffer) : Nat :=
  b.instrs.size

theorem lt_size {b : Buffer} {n : Nat} {i : Instr} (h : b.instrs[n]? = some i) : n < b.size :=
  (Array.getElem?_eq_some_iff.mp h).1

/-- Handle of the instruction at a position. -/
def handle (b : Buffer) (index : Nat) : Handle :=
  ⟨b.id, index⟩

/-- Handle that the next instruction gets. -/
def next (b : Buffer) : Handle :=
  b.handle b.size

/-- The last instruction, if there is one. -/
def last? (b : Buffer) : Option Handle :=
  if b.size = 0 then none else some (b.handle (b.size - 1))

/-- The parameter table after an instruction with this payload got the handle `h`. -/
def indexParam (ps : Vector (Option Handle) maxParams) (h : Handle) :
    Payload → Vector (Option Handle) maxParams
  | .param i => ps.setIfInBounds i.toNat (some h)
  | _ => ps

/-- Appends an instruction and yields its handle. -/
def append (b : Buffer) (i : Instr) : Handle × Buffer :=
  (b.next,
   { b with
     instrs := b.instrs.push i
     params := indexParam b.params b.next i.payload
     calls := b.calls + if i.payload.kind = .call then 1 else 0
     guards := b.guards + if i.payload.kind = .guard then 1 else 0 })

/-- Whether a handle names an instruction of this buffer. -/
def contains (b : Buffer) (h : Handle) : Bool :=
  h.buffer == b.id && decide (h.index < b.size)

/-- Instruction behind a handle, if it is one of this buffer. -/
def get? (b : Buffer) (h : Handle) : Option Instr :=
  if h.buffer = b.id then b.instrs[h.index]? else none

/-- Instruction at a position. -/
def instrAt (b : Buffer) (index : Nat) : Except Fault Instr :=
  match b.instrs[index]? with
  | some i => .ok i
  | none => .error .indexOutOfRange

/-- Instruction behind a handle; a handle of another buffer and one past the end are faults. -/
def get (b : Buffer) (h : Handle) : Except Fault Instr :=
  if h.buffer = b.id then b.instrAt h.index else .error (.foreignHandle h)

/-- Instruction of parameter `i`. -/
def param? (b : Buffer) (i : Nat) : Option Handle :=
  b.params[i]?.join

/-- Instructions of the parameters, up to the first position that has none. -/
def paramList (b : Buffer) : List Handle :=
  (b.params.toList.takeWhile Option.isSome).filterMap fun h => h

/-- References of an instruction in the order in which they are checked: operands, the bound
    target, call arguments as they are kept, from the last to the first. -/
def references (i : Instr) : List Handle :=
  i.operandList ++ i.target?.toList ++ (i.callSite?.map CallSite.reversed).getD []

/-- First reference of an instruction that is not an instruction of this buffer. -/
def foreignOperand? (b : Buffer) (i : Instr) : Option Handle :=
  (references i).find? fun h => !b.contains h

/-! ### Binding jumps -/

/-- Requires a handle of this buffer. -/
def checkOwn (b : Buffer) (h : Handle) : Except BuildError Unit :=
  if b.contains h then .ok () else .error (.foreignInstruction h)

/-- Requires the handle of a label of this buffer. -/
def checkLabel (b : Buffer) (h : Handle) : Except BuildError Unit := do
  b.checkOwn h
  if (b.get? h).map Instr.opcode = some .label then .ok () else .error (.notALabel h)

/-- The buffer with the payload of one instruction replaced. -/
def setPayload (b : Buffer) (index : Nat) (p : Payload) : Buffer :=
  { b with instrs := b.instrs.modify index fun i => { i with payload := p } }

/-- Binds a branch to a label. -/
def setTarget (b : Buffer) (branch label : Handle) : Except BuildError Buffer := do
  b.checkOwn branch
  b.checkLabel label
  match b.get? branch with
  | some i =>
    if i.opcode.isBranch then
      .ok (b.setPayload branch.index (.target (some label)))
    else
      .error (.notABranch branch)
  | none => .error (.notABranch branch)

/-- The buffer after the cell at an address was bound to a label. -/
def assign (b : Buffer) (place : BitVec 64) (label : Handle) : Buffer :=
  { b with instrs := b.instrs.map (·.assign place label) }

/-- The cell of entry `index` of a jump table, if it may be bound to a label. -/
def tableCell (b : Buffer) (table : Handle) (index : Nat) (label : Handle) :
    Except BuildError Cell := do
  b.checkOwn table
  b.checkLabel label
  match (b.get? table).map Instr.payload with
  | some (.table cells) =>
    match cells[index]? with
    | some cell => .ok cell
    | none => .error (.noTableEntry table index)
  | _ => .error (.notABranch table)

/-- Binds entry `index` of a jump table to a label. -/
def setTableTarget (b : Buffer) (table : Handle) (index : Nat) (label : Handle) :
    Except BuildError Buffer := do
  return b.assign (← b.tableCell table index label).place label

end Buffer

end JitBackend
