import JitBackend.BuildError
import JitBackend.Callee
import JitBackend.Text.Record

namespace JitBackend

/-!
# Diagnostics

What the library reports about its work besides its results. Reports are values, collected in
the order in which they happen; their wording and level are given here once.

* `Event` is one report, `Event.text` its line in a log;
* `Log` is the list of reports of a run, `Log.lines` what a reader of the log sees.
-/

/-- Importance of a report. -/
inductive Level where
  | trace | debug | info | warn | error
  deriving DecidableEq, Repr

/-- Spelling in a log. -/
def Level.name : Level → String
  | .trace => "TRACE"
  | .debug => "DEBUG"
  | .info => "INFO"
  | .warn => "WARN"
  | .error => "ERROR"

/-- One report. -/
inductive Event where
  /-- A pipeline with these stages was assembled. -/
  | pipelineBuilt (stages : List String)
  /-- An instruction was answered with an existing value of the same meaning. -/
  | folded (op : Opcode) (h : Handle)
  /-- An instruction was replaced by another one. -/
  | replaced (op replacement : Opcode)
  /-- A duplicate was answered with the first instruction of its kind. -/
  | reused (op : Opcode) (h : Handle)
  /-- An instruction reached the buffer. -/
  | appended (line : String)
  /-- A register was taken from the value in it. -/
  | evicted (owner : Option Nat) (bank id : Nat) (value : Nat)
  /-- A convention was picked for a call or a function. -/
  | conventionPicked (abi : Abi)
  | callLowered (callee : String)
  | frameLaidOut (live total bytes : Nat)
  | buildStarted (function : String) (optimize : Bool) (stages : List String)
  /-- An instruction was refused by the function under construction. -/
  | rejected (function : String) (op : Opcode) (reason : BuildError)
  | mismatchAborted (callee : String) (declared deduced : Signature)
  | finished (function listing : String)
  | conflictingReturns (function returns : String)
  | noReturn (function : String)
  | assemblyFailed (function reason : String)
  | redefined (function : String)
  | externKept (callee : String) (sig : Signature)
  deriving DecidableEq, Repr

/-- The reports of a run, in order. -/
abbrev Log := Array Event

namespace Event

/-- Importance of the report. -/
def level : Event → Level
  | .pipelineBuilt _ | .folded _ _ | .replaced _ _ | .reused _ _ | .evicted _ _ _ _ => .trace
  | .conventionPicked _ | .frameLaidOut _ _ _ => .trace
  | .appended _ | .callLowered _ | .buildStarted _ _ _ | .finished _ _ | .redefined _ => .debug
  | .conflictingReturns _ _ | .noReturn _ | .externKept _ _ => .warn
  | .rejected _ _ _ | .mismatchAborted _ _ _ | .assemblyFailed _ _ => .error

/-- A list of names, each between quotes. -/
def nameList (names : List String) : String :=
  Text.list (names.map Text.quoted)

/-- Wording of the report. -/
def message : Event → String
  | .pipelineBuilt stages => "writer pipeline: " ++ nameList stages
  | .folded op h => s!"expr: {op.name} folded to {h.name}"
  | .replaced op replacement => s!"expr: {op.name} rewritten as {replacement.name}"
  | .reused op h => s!"cse: {op.name} reuses {h.name}"
  | .appended line => "    " ++ line
  | .evicted owner bank id value =>
    "evicting "
      ++ Text.optional (owner.map fun v => Text.record "Assignment" [("local_idx", toString v)])
      ++ " from " ++ Text.record "AsmReg" [("bank", toString bank), ("id", toString id)]
      ++ " for value " ++ toString value
  | .conventionPicked abi => s!"{abi.name} call lowered with the System V convention"
  | .callLowered callee => "Call site lowered: " ++ callee
  | .frameLaidOut live total bytes =>
    s!"{live} live of {total} instructions, frame {bytes} bytes"
  | .buildStarted function optimize stages =>
    "building " ++ function ++ " (optimize=" ++ Text.bool optimize ++ ", stages="
      ++ nameList stages ++ ")"
  | .rejected function op reason => s!"{function}: {op.name} rejected, {reason.message}"
  | .mismatchAborted callee declared deduced =>
    s!"signature mismatch calling {callee}: declared {declared.text}, call site uses {deduced.text}"
  | .finished function listing => s!"{function}:\n{listing}"
  | .conflictingReturns function returns =>
    s!"function {function} has multiple return types {returns}, not compiling"
  | .noReturn function => s!"function {function} has no return type"
  | .assemblyFailed function reason => s!"error during assembly of {function}: {reason}"
  | .redefined function => s!"fragment {function} redefined"
  | .externKept callee sig =>
    s!"extern {callee} already registered as {sig.text}, keeping the first"

/-- Line of the report in a log. -/
def text (e : Event) : String :=
  e.level.name ++ " " ++ e.message

/-- Whether the report is about a function being built or finished. -/
def isOfBuilder : Event → Bool
  | .buildStarted _ _ _ | .rejected _ _ _ | .mismatchAborted _ _ _ | .finished _ _ => true
  | .conflictingReturns _ _ | .noReturn _ | .assemblyFailed _ _ => true
  | _ => false

/-- Opening of a builder's message that announces installed code by its address. -/
def announcement : String := "compiled "

/-- Whether a reader of the log sees the report. Addresses differ from run to run, so a builder's
    message that opens like an announcement is held back, even if the opening is the name of a
    function. -/
def isShown (e : Event) : Bool :=
  !(e.isOfBuilder && announcement.toList.isPrefixOf e.message.toList)

end Event

/-- Lines of the reports that a reader of the log sees. -/
def Log.lines (log : Log) : List String :=
  (log.toList.filter Event.isShown).map Event.text

end JitBackend
