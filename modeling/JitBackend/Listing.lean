import JitBackend.Buffer
import JitBackend.Decimal.FloatText

namespace JitBackend

/-!
# Listings

The text of instructions, one line each: the handle if there is a result, the opcode, the
constant, the operands, and what the payload adds.

* `Instr.text` is the line of one instruction, `Buffer.listing` that of all of them;
* `Buffer.summary` describes a buffer in one line.
-/

/-- Text of a constant; floats are written with the fewest digits that read back. -/
def Const.text : Const → String
  | .int32 v => toString v.toInt
  | .int64 v => toString v.toInt
  | .float64 p => Decimal.FloatFormat.double.text p.toNat
  | .float32 p => Decimal.FloatFormat.single.text p.toNat

namespace Payload

/-- What stands right after the opcode. -/
def leadText : Payload → String
  | .const c => " " ++ c.text
  | .param i => " " ++ toString i.toNat
  | .alloc size => " " ++ toString size.toNat
  | .comment text => " #" ++ text
  | _ => ""

/-- Text of a jump target. -/
def targetText : Option Handle → String
  | .some h => h.name
  | .none => "?"

/-- What stands after the operands. -/
def tailText : Payload → String
  | .target t => " -> " ++ targetText t
  | .table cells => " [" ++ ", ".intercalate ((Cell.labels cells).toList.map targetText) ++ "]"
  | .call site =>
    " " ++ site.callee.name ++ " (" ++ " ".intercalate (site.args.map Handle.name) ++ ") /* "
      ++ site.callee.abi.name ++ " " ++ site.callee.sig.text ++ " " ++ site.callee.access.name
      ++ " */"
  | .guard g => " -> exit" ++ toString g.id.toNat ++ " from " ++ g.origin
  | _ => ""

end Payload

namespace Instr

/-- Operands of a load or store: the values, then the base with its displacement. -/
def memoryText (disp : BitVec 32) : List Handle → String
  | [] => ""
  | [base] => " " ++ base.name ++ "[" ++ toString disp.toInt ++ "]"
  | value :: rest => " " ++ value.name ++ "," ++ memoryText disp rest

/-- Operands in the form that the payload asks for. -/
def operandText (i : Instr) : String :=
  match i.payload with
  | .disp d => memoryText d i.operandList
  | _ =>
    match i.operandList with
    | [] => ""
    | hs => " " ++ ", ".intercalate (hs.map Handle.name)

/-- The line of an instruction with handle `h`. -/
def text (i : Instr) (h : Handle) : String :=
  (if i.result = .void then "" else h.name ++ " = ") ++ i.opcode.name ++ i.payload.leadText
    ++ i.operandText ++ i.payload.tailText

end Instr

namespace Buffer

/-- Line of the instruction at a position. -/
def line (b : Buffer) (index : Nat) : String :=
  match b.instrs[index]? with
  | some i => i.text (b.handle index)
  | none => ""

/-- All lines, each with its line end. -/
def listing (b : Buffer) : String :=
  String.join ((List.range b.size).map fun i => b.line i ++ "\n")

/-- One-line summary. -/
def summary (b : Buffer) : String :=
  Text.record "LirBuffer"
    [("id", toString b.id), ("len", toString b.size),
     ("calls", toString b.calls), ("guards", toString b.guards)]

end Buffer

end JitBackend
