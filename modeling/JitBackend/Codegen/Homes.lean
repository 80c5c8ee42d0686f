import JitBackend.Codegen.Liveness
import JitBackend.Codegen.State

namespace JitBackend

/-!
# Homes of values

Before code is generated every needed value gets a home. Constants and addresses of stack areas
are computed again at each use, parameters beyond the registers are already in the caller's
frame, everything else gets a slot. On the way, branches are checked to go to labels and room is
made for the arguments of calls.

* `Gen.assignHomes` handles all needed instructions in order;
* `Gen.layFrame` settles the size of the frame and compares it with the limit.
-/

/-- Offset of the first parameter in the caller's frame. -/
def stackParamBase : Int := 16

namespace Gen

/-- Requires a target that is a label of the function. -/
def checkTarget (b : Buffer) (source : Handle) (target : Option Handle) : Gen Unit :=
  match target.bind b.get? with
  | some i => if i.opcode = .label then pure () else Step.fail (.unknownBranch source)
  | none => Step.fail (.unknownBranch source)

/-- Makes room for the arguments of a call. -/
def reserveArgs (b : Buffer) (site : CallSite) : Gen Unit := do
  report (.conventionPicked site.callee.abi)
  let types ← site.args.mapM fun h => do
    return (← Step.liftFault (b.get h)).result
  let assigner := (Assigner.fresh.arguments types).2
  modify fun s => { s with frame := s.frame.reserveOutgoing assigner.stackSize }

/-- Checks and reservations that depend on the payload alone. -/
def preparePayload (b : Buffer) (source : Handle) : Payload → Gen Unit
  | .target t => checkTarget b source t
  | .table cells => (Cell.labels cells).toList.forM (checkTarget b source)
  | .call site => reserveArgs b site
  | _ => pure ()

/-- Creates the label of the code for the label at a position. -/
def createLabel (index : Nat) : Gen Unit := do
  let label ← emit Machine.Emitter.newLabel
  modify fun s => { s with labels := s.labels.setIfInBounds index (some label) }

/-- Home of the value of an instruction with this payload. -/
def homeFor : Payload → Gen Home
  | .const c => return .remat (.const c)
  | .alloc size => return .remat (.frameAddr (← frame (·.reserve size.toNat)))
  | .param i =>
    if Convention.intArgs.length ≤ i.toNat then
      return .slot (stackParamBase + 8 * (i.toNat - Convention.intArgs.length : Nat))
    else
      return .slot (← frame (·.reserve 8))
  | _ => return .slot (← frame (·.reserve 8))

/-- Prepares one needed instruction. -/
def prepare (b : Buffer) (l : Liveness) (index : Nat) (i : Instr) : Gen Unit := do
  preparePayload b (b.handle index) i.payload
  if i.opcode = .label then
    createLabel index
  if i.result ≠ .void then
    let home ← homeFor i.payload
    modify fun s =>
      { s with values := s.values.insert index (.atHome i.result home (l.usesOf index)) }

/-- Prepares all needed instructions in order. -/
def assignHomes (b : Buffer) (l : Liveness) : Gen Unit :=
  (List.range b.size).forM fun index =>
    if l.isLive index then do
      prepare b l index (← Step.liftFault (b.instrAt index))
    else
      pure ()

/-- Settles the frame, which must not be larger than `limit`. -/
def layFrame (b : Buffer) (l : Liveness) (limit : Nat) : Gen Unit := do
  frame fun f => do return ((), ← f.settle)
  let required ← Step.liftFault (← get).frame.total
  if limit < required then
    Step.fail (.stackFull required limit)
  report (.frameLaidOut l.count b.size required)

end Gen

end JitBackend
