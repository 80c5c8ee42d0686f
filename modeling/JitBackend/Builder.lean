import JitBackend.Context
import JitBackend.Pipeline.Assembly
import JitBackend.ReturnKinds

namespace JitBackend

/-!
# Building a function

A function under construction. Every instruction goes through the pipeline that was chosen when
building started. Calls are looked up by name and compared with the signature of the callee.

* `Builder` is the function, `Building` the function together with its context;
* `Build.append` adds an instruction, `Build.call` a call;
* `Request` is one request to a function under construction, `Request.run` carries it out.
-/

/-- A function under construction. -/
structure Builder where
  name : String
  optimize : Bool
  pipeline : Pipeline
  buffer : Buffer
  returns : ReturnKinds
  /-- Number of parameters. -/
  params : Nat
  /-- Number of guards. -/
  guards : Nat
  /-- The first refused instruction. -/
  error : Option BuildError

/-- One-line summary. -/
def Builder.summary (b : Builder) : String :=
  Text.record "FunctionBuilder"
    [("name", Text.quoted b.name), ("optimize", Text.bool b.optimize),
     ("instructions", toString b.buffer.size), ("return_types", b.returns.summary)]

/-- A function under construction with its context. -/
structure Building where
  context : Context
  builder : Builder

/-- A step of building a function. -/
abbrev Build := Step BuildError Building

namespace Build

/-- Adds a report. -/
def report (e : Event) : Build Unit :=
  modify fun s => { s with context := s.context.report e }

/-- Changes the function. -/
def modifyBuilder (f : Builder → Builder) : Build Unit :=
  modify fun s => { s with builder := f s.builder }

/-- Sends an instruction through the pipeline. -/
def feed (i : Instr) : Build Handle := do
  let s ← get
  let (answer, pipeline, space) := s.builder.pipeline.feed i ⟨s.builder.buffer, s.context.log⟩
  set ({ context := { s.context with log := space.log }
         builder := { s.builder with pipeline, buffer := space.buffer } } : Building)
  Step.liftFault answer

/-- Adds an instruction. One that refers to another function is refused: its foreign handle is
    the answer, and the function cannot be finished any more. -/
def append (i : Instr) : Build Handle := do
  let b := (← get).builder
  match b.buffer.foreignOperand? i with
  | some h =>
    report (.rejected b.name i.opcode (.foreignInstruction h))
    modifyBuilder fun b => { b with error := b.error <|> some (.foreignInstruction h) }
    return h
  | none => feed i

/-- Adds the next parameter. -/
def parameter : Build Handle := do
  let index := (← get).builder.params
  if maxParams ≤ index then
    Step.fail (.tooManyParameters index maxParams)
  modifyBuilder fun b => { b with params := b.params + 1 }
  append ⟨.param, .empty, .param (BitVec.ofNat 8 index)⟩

/-- Returns a value. -/
def returnValue (t : ValTy) (h : Handle) : Build Handle := do
  modifyBuilder fun b => { b with returns := b.returns.insert (.val t) }
  append (.plain (.ret t) [h])

/-- Adds an exit through a new guard, whose record is at an address. -/
def exit (record : BitVec 64) : Build Handle := do
  let b := (← get).builder
  modifyBuilder fun b => { b with guards := b.guards + 1 }
  append ⟨.exit, .empty, .guard ⟨BitVec.ofNat 32 b.guards, b.name, record⟩⟩

/-- Leaves without a value. -/
def leave (record : BitVec 64) : Build Handle := do
  modifyBuilder fun b => { b with returns := b.returns.insert .void }
  exit record

/-- Kinds of the arguments of a call. -/
def argKinds (b : Buffer) (args : List Handle) : Except BuildError (List ArgKind) :=
  args.mapM fun h =>
    match b.get? h with
    | some i => .ok (.ofTy i.result)
    | none => .error (.foreignInstruction h)

/-- The call site for a call of `callee`, of the signature that the call itself has. -/
def lowerCall (callee : String) (op : Opcode) (abi : Abi) (args : List Handle) :
    Build CallSite := do
  let tooMany := BuildError.tooManyArguments callee args.length maxArgs
  if maxArgs < args.length then
    Step.fail tooMany
  let result ← Step.orFail (.notACall op) op.callResult?
  let s ← get
  if callee = s.builder.name then
    Step.fail (.notCallable callee)
  let target ← Step.liftError (s.context.registry.resolve callee)
  let kinds ← Step.liftError (argKinds s.builder.buffer args)
  let deduced ← Step.orFail tooMany (Signature.ofKinds? (.ofTy result) kinds)
  unless deduced.isCompatible target.sig do
    match s.context.config.mismatch with
    | .abort =>
      report (.mismatchAborted callee target.sig deduced)
      Step.fault .aborted
    | .error => Step.fail (.signatureMismatch callee target.sig deduced)
  return .ofArgs { target with sig := deduced, abi } args

/-- Adds a call. -/
def call (callee : String) (op : Opcode) (abi : Abi) (args : List Handle) : Build Handle := do
  let site ← lowerCall callee op abi args
  append ⟨op, .empty, .call site⟩

/-- Changes the buffer, or refuses to. -/
def rebuffer (f : Buffer → Except BuildError Buffer) : Build Unit := do
  let buffer ← Step.liftError (f (← get).builder.buffer)
  modifyBuilder fun b => { b with buffer }

/-- Binds an entry of a jump table to a label. All instructions that share the entry see it, those
    of finished functions too. -/
def setTableTarget (table : Handle) (index : Nat) (label : Handle) : Build Unit := do
  let cell ← Step.liftError ((← get).builder.buffer.tableCell table index label)
  rebuffer fun b => .ok (b.assign cell.place label)
  modify fun s =>
    { s with context.registry := s.context.registry.assign cell.place label }

end Build

/-- A request to a function under construction. -/
inductive Request where
  /-- Add the next parameter. -/
  | parameter
  /-- Add an instruction as it is. -/
  | append (i : Instr)
  | returnValue (t : ValTy) (h : Handle)
  /-- Leave without a value, through a guard whose record is at an address. -/
  | leave (record : BitVec 64)
  | call (callee : String) (op : Opcode) (abi : Abi) (args : List Handle)
  | setTarget (branch label : Handle)
  | setTableTarget (table : Handle) (index : Nat) (label : Handle)
  deriving DecidableEq, Repr

/-- Carries out a request. The answer is the handle of the instruction asked for, if any. -/
def Request.run : Request → Build (Option Handle)
  | .parameter => some <$> Build.parameter
  | .append i => some <$> Build.append i
  | .returnValue t h => some <$> Build.returnValue t h
  | .leave record => some <$> Build.leave record
  | .call callee op abi args => some <$> Build.call callee op abi args
  | .setTarget branch label => do
    Build.rebuffer (·.setTarget branch label)
    return none
  | .setTableTarget table index label => do
    Build.setTableTarget table index label
    return none

/-- The state that a step of building ends in, whether it stopped short or not. -/
def Building.after {α : Type} (s : Building) (x : Build α) : Building :=
  match x s with
  | .ok _ s => s
  | .error _ s => s

/-- Starts building a function, whose first instruction marks the start. -/
def Context.startFunction (c : Context) (name : String) (optimize : Bool) : Building :=
  let pipeline := Pipeline.ofConfig c.config optimize
  let context := { c with
    session := { (c.session.intern name).2 with current := some name }
    nextBuffer := c.nextBuffer + 1 }
  let context := (context.report pipeline.built).report
    (.buildStarted name optimize pipeline.stageNames)
  let builder : Builder :=
    { name, optimize, pipeline, buffer := .empty c.nextBuffer, returns := .none
      params := 0, guards := 0, error := none }
  Building.after ⟨context, builder⟩ (Build.append (.plain .start []))

end JitBackend
