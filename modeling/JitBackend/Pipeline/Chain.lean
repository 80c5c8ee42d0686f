import JitBackend.Event
import JitBackend.Listing
import JitBackend.Pipeline.Check
import JitBackend.Pipeline.Share
import JitBackend.Pipeline.Simplify

namespace JitBackend

/-!
# Chains of stages

Every instruction passes through a chain of stages before it joins the buffer. A stage hands the
instruction on, hands on another one in its place, or answers with an instruction that is
already there.

* `Stage` is one stage with what it remembers, `Chain n` a chain of `n` of them;
* `Chain.feed` sends one instruction through a chain.
-/

/-- One stage of a chain, with its memory. -/
inductive Stage where
  /-- Refuses instructions with a defect; `position` names the stage in the fault. -/
  | check (position : String)
  /-- Simplifies integer instructions and counts the simplifications. -/
  | simplify (simplifications : Nat)
  /-- Answers duplicates with the first instruction of their kind and counts the hits. -/
  | share (table : ShareTable) (hits : Nat)
  /-- Reports the instructions of the buffer from position `next` on. -/
  | trace (next : Nat)
  deriving DecidableEq, Repr

namespace Stage

/-- Spelling in logs. -/
def name : Stage → String
  | .check _ => "validate"
  | .simplify _ => "expr"
  | .share _ _ => "cse"
  | .trace _ => "verbose"

/-- Number of simplifications made. -/
def simplifications : Stage → Nat
  | .simplify n => n
  | _ => 0

/-- Number of duplicates answered. -/
def hits : Stage → Nat
  | .share _ n => n
  | _ => 0

end Stage

/-- A chain of `n` stages; the first one sees an instruction first. -/
inductive Chain : Nat → Type where
  | sink : Chain 0
  | stage {n : Nat} (s : Stage) (rest : Chain n) : Chain (n + 1)

/-- What a chain works on: the buffer at its end and the reports. -/
structure Workspace where
  buffer : Buffer
  log : Log

/-- Adds a report. -/
def Workspace.report (w : Workspace) (e : Event) : Workspace :=
  { w with log := w.log.push e }

/-- Outcome of sending an instruction through a chain of `n` stages. -/
structure Fed (n : Nat) where
  answer : Except Fault Handle
  chain : Chain n
  space : Workspace

/-- The outcome for a chain with one more stage in front. -/
def Fed.under {n : Nat} (r : Fed n) (s : Stage) : Fed (n + 1) :=
  ⟨r.answer, .stage s r.chain, r.space⟩

/-- The outcome with the instructions of the buffer reported from position `next` on, unless the
    instruction was refused further down. -/
def Fed.traced {n : Nat} (r : Fed n) (next : Nat) : Fed (n + 1) :=
  match r.answer with
  | .error _ => r.under (.trace next)
  | .ok _ =>
    let buffer := r.space.buffer
    let lines := (List.range' next (buffer.size - next)).map fun k => Event.appended (buffer.line k)
    { r.under (.trace (max next buffer.size)) with
      space := { r.space with log := r.space.log ++ lines } }

namespace Chain

/-- The stages, first to last. -/
def toList {n : Nat} : Chain n → List Stage
  | .sink => []
  | .stage s rest => s :: rest.toList

/-- The chain of the given stages. -/
def ofList : (stages : List Stage) → Chain stages.length
  | [] => .sink
  | s :: rest => .stage s (ofList rest)

/-- The outcome of answering without the rest of the chain. -/
def answer {n : Nat} (c : Chain n) (w : Workspace) (a : Except Fault Handle) : Fed n :=
  ⟨a, c, w⟩

/-- Sends an instruction through the chain into the buffer. The answer is the handle that stands
    for the instruction. -/
def feed : {n : Nat} → Chain n → Instr → Workspace → Fed n
  | 0, .sink, i, w =>
    let (h, buffer) := w.buffer.append i
    ⟨.ok h, .sink, { w with buffer }⟩
  | _ + 1, .stage (.check position) rest, i, w =>
    match i.check w.buffer with
    | .ok () => (rest.feed i w).under (.check position)
    | .error d => (rest.answer w (.error (.invalid position i.opcode d))).under (.check position)
  | _ + 1, .stage (.simplify count) rest, i, w =>
    match i.simplify w.buffer with
    | .error f => (rest.answer w (.error f)).under (.simplify count)
    | .ok (.keep j) => (rest.feed j w).under (.simplify count)
    | .ok (.existing h) =>
      (rest.answer (w.report (.folded i.opcode h)) (.ok h)).under (.simplify (count + 1))
    | .ok (.replace j) =>
      (rest.feed j (w.report (.replaced i.opcode j.opcode))).under (.simplify (count + 1))
    | .ok (.shiftLeft width a k) =>
      let helper := rest.feed (.imm32 (BitVec.ofNat 32 k)) w
      match helper.answer with
      | .error _ => helper.under (.simplify count)
      | .ok h =>
        let j := Instr.plain (.shift width .shl) [a, h]
        (helper.chain.feed j (helper.space.report (.replaced i.opcode j.opcode))).under
          (.simplify (count + 1))
  | _ + 1, .stage (.share table hits) rest, i, w =>
    if i.opcode = .label then
      (rest.feed i w).under (.share table.clearRegion hits)
    else if i.opcode.isShareable then
      match table.find? i.shareKey with
      | some h =>
        (rest.answer (w.report (.reused i.opcode h)) (.ok h)).under (.share table (hits + 1))
      | none =>
        let r := rest.feed i w
        match r.answer with
        | .ok h => r.under (.share (table.insert i.shareKey h) hits)
        | .error _ => r.under (.share table hits)
    else
      (rest.feed i w).under (.share table hits)
  | _ + 1, .stage (.trace next) rest, i, w =>
    (rest.feed i w).traced next

end Chain

end JitBackend
