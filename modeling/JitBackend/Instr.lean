import JitBackend.Callee
import JitBackend.Guard
import JitBackend.Opcode

namespace JitBackend

/-!
# Instructions

An instruction is an opcode with up to three operands and a payload. Nothing here requires that
opcode, operands and payload fit together; that is what the checking stage of a pipeline is for.

* `Payload` is the data an instruction carries besides its operands;
* `Cell` is an entry of a jump table, which several instructions may share;
* `Instr.operandList` lists the operands that are present;
* `Payload.bits` is the part of the payload by which two pure instructions are told apart.
-/

/-- An entry of a jump table: the address of the cell that holds it, and what the cell holds. All
    entries with one address are the same cell. -/
structure Cell where
  place : BitVec 64
  label : Option Handle
  deriving DecidableEq, Repr

/-- The entry after the cell at an address was bound to a label. -/
def Cell.assign (c : Cell) (place : BitVec 64) (label : Handle) : Cell :=
  if c.place = place then { c with label := some label } else c

/-- What the entries of a jump table hold. -/
def Cell.labels (cells : Array Cell) : Array (Option Handle) :=
  cells.map Cell.label

/-- Data carried by an instruction. -/
inductive Payload where
  | none
  | const (c : Const)
  /-- Byte displacement of a load or store. -/
  | disp (d : BitVec 32)
  /-- Position of a parameter. -/
  | param (i : BitVec 8)
  /-- Size in bytes of a stack area. -/
  | alloc (size : BitVec 32)
  /-- Target of a branch; a forward branch gets it later. -/
  | target (label : Option Handle)
  /-- Targets of a jump table. -/
  | table (cells : Array Cell)
  | call (site : CallSite)
  | guard (g : Guard)
  | comment (text : String)
  deriving DecidableEq, Repr

namespace Payload

/-- Kind of the payload. -/
def kind : Payload → PayloadKind
  | .none => .none
  | .const _ => .imm
  | .disp _ => .disp
  | .param _ => .param
  | .alloc _ => .alloc
  | .target _ => .target
  | .table _ => .table
  | .call _ => .call
  | .guard _ => .guard
  | .comment _ => .comment

/-- The numeric part of the payload, zero if there is none. -/
def bits : Payload → BitVec 64
  | .const c => c.bits
  | .disp d => d.setWidth 64
  | .param i => i.setWidth 64
  | .alloc size => size.setWidth 64
  | _ => 0

/-- The payload after the cell at an address was bound to a label. -/
def assign (p : Payload) (place : BitVec 64) (label : Handle) : Payload :=
  match p with
  | .table cells => .table (cells.map (·.assign place label))
  | p => p

/-- The constant of an immediate. -/
def const? : Payload → Option Const
  | .const c => some c
  | _ => Option.none

end Payload

/-- Spelling of a payload kind in messages. -/
def PayloadKind.name : PayloadKind → String
  | .none => "None"
  | .imm => "Imm"
  | .disp => "Disp"
  | .param => "Param"
  | .alloc => "Alloc"
  | .target => "Target"
  | .table => "Table"
  | .call => "Call"
  | .guard => "Guard"
  | .comment => "Comment"

/-- Three operand slots, each of which may be empty. -/
structure Operands where
  fst : Option Handle
  snd : Option Handle
  thd : Option Handle
  deriving DecidableEq, Repr, Hashable

namespace Operands

/-- No operands. -/
def empty : Operands := ⟨none, none, none⟩

/-- Fills the slots from the left; there is no room for more than three. -/
def ofList (hs : List Handle) : Operands :=
  ⟨hs[0]?, hs[1]?, hs[2]?⟩

/-- The slots in order. -/
def slots (o : Operands) : List (Option Handle) :=
  [o.fst, o.snd, o.thd]

/-- The operands that are present, in order. -/
def toList (o : Operands) : List Handle :=
  o.slots.filterMap id

/-- Operand in slot `i`. -/
def get? (o : Operands) (i : Nat) : Option Handle :=
  match i with
  | 0 => o.fst
  | 1 => o.snd
  | 2 => o.thd
  | _ => none

end Operands

/-- One instruction. -/
structure Instr where
  opcode : Opcode
  operands : Operands
  payload : Payload
  deriving DecidableEq, Repr

namespace Instr

/-- An instruction with the given operands and no payload. -/
def plain (op : Opcode) (args : List Handle) : Instr :=
  ⟨op, .ofList args, .none⟩

/-- The instruction that produces a constant. -/
def const (c : Const) : Instr :=
  ⟨.imm c.ty, .empty, .const c⟩

/-- The 32-bit integer constant `v`. -/
def imm32 (v : BitVec 32) : Instr :=
  const (.int32 v)

/-- Operands that are present, in order. -/
def operandList (i : Instr) : List Handle :=
  i.operands.toList

/-- Type of the result. -/
def result (i : Instr) : Ty :=
  i.opcode.result

/-- Displacement of a load or store, zero for anything else. -/
def displacement (i : Instr) : BitVec 32 :=
  match i.payload with
  | .disp d => d
  | _ => 0

/-- Bound target of a branch. -/
def target? (i : Instr) : Option Handle :=
  match i.payload with
  | .target t => t
  | _ => none

/-- Call site of a call. -/
def callSite? (i : Instr) : Option CallSite :=
  match i.payload with
  | .call site => some site
  | _ => none

/-- Guard of an exit. -/
def guard? (i : Instr) : Option Guard :=
  match i.payload with
  | .guard g => some g
  | _ => none

/-- Arguments of a call in source order, none for anything else. -/
def callArgs (i : Instr) : List Handle :=
  match i.payload with
  | .call site => site.args
  | _ => []

/-- The instruction after the cell at an address was bound to a label. -/
def assign (i : Instr) (place : BitVec 64) (label : Handle) : Instr :=
  { i with payload := i.payload.assign place label }

/-- Value of an integer constant, sign-extended. The payload decides, whatever the opcode. -/
def int? (i : Instr) : Option (BitVec 64) :=
  i.payload.const?.bind Const.int?

end Instr

end JitBackend
