import JitBackend.Builder
import JitBackend.Codegen.Compile

namespace JitBackend

/-!
# Finishing a function

Closes a function under construction: its parameters are kept alive to the end, a last guard is
added, the function replaces an earlier one of its name, code is generated and installed. A
function whose returns conflict gets no code, one that never returns a value no entry point.

* `Building.finish` yields the start of the code if it can be called;
* `FinishError` says what went wrong.
-/

/-- Why a function was not finished. -/
inductive FinishError where
  | build (e : BuildError)
  | assembly (e : AsmError)
  | memory (e : CodeError)
  deriving DecidableEq, Repr

/-- Wording of an error. -/
def FinishError.message : FinishError → String
  | .build e => e.message
  | .assembly e => "error during assembly: " ++ e.message
  | .memory e => e.message

/-- What the process supplies while a function is finished. -/
structure Supply extends Host where
  /-- Address of the record of the last guard. -/
  record : BitVec 64

/-- A step of finishing a function. -/
abbrev Finish := Step FinishError Context

namespace Build

/-- Keeps a parameter alive, if it is there. -/
def keepParam (index : Nat) : Build Unit := do
  match (← get).builder.buffer.param? index with
  | some h =>
    let _ ← append (.plain (.live .int64) [h])
  | none => pure ()

/-- Adds what every function ends with; the record of the last guard is at an address. -/
def close (record : BitVec 64) : Build Unit := do
  (List.range (← get).builder.params).forM keepParam
  let _ ← exit record

end Build

namespace Finish

/-- Adds a report. -/
def report (e : Event) : Finish Unit :=
  modify fun c => c.report e

/-- Adds the counters of a pipeline to the statistics. -/
def recordCounters (p : Pipeline) : Finish Unit :=
  Step.within Context.session (fun s c => { c with session := s }) Empty.elim do
    Session.recordHits p.hits
    Session.recordSimplifications p.simplifications

/-- Registers the function with its instructions, instead of an earlier one of its name. -/
def declare (b : Builder) : Finish Unit := do
  let known := ((← get).registry.fragment? b.name).isSome
  modify fun c =>
    { c with registry := (c.registry.declare b.name).update b.name fun f =>
        { f with buffer := some b.buffer } }
  if known then
    report (.redefined b.name)
  if (← get).config.verbose then
    report (.finished b.name b.buffer.listing)

/-- Generates code. -/
def generate [Machine.BlockEncoder] (b : Builder) : Finish Assembly := do
  let maxFrame := (← get).config.maxFrame
  let account (c : Context) : Account := ⟨c.session.stats, c.log⟩
  let put (a : Account) (c : Context) : Context :=
    { c with session := { c.session with stats := a.stats }, log := a.log }
  try
    Step.within account put .assembly (compile b.buffer maxFrame)
  catch
    | .error e =>
      match e with
      | .assembly e => report (.assemblyFailed b.name e.message)
      | _ => pure ()
      Step.fail e
    | .fault f => Step.fault f

/-- Installs code, and notes in the records of its guards where their exits are. -/
def install (host : Host) (b : Builder) (a : Assembly) : Finish InstalledCode := do
  let block ← Step.within Context.space (fun s c => { c with space := s }) .memory
    (CodeSpace.install host a.code.length)
  let number := (← get).installed
  modify fun c =>
    { c with installed := c.installed + 1, records := c.records.place block.start a.exits }
  Step.within Context.session (fun s c => { c with session := s }) Empty.elim
    (Session.recordFunction b.name a.code.length)
  return ⟨number, block, a.code⟩

/-- The function with its code: signature, entry point and exits. -/
def publish (b : Builder) (result : Option ArgKind) (a : Assembly) (code : InstalledCode)
    (f : Fragment) : Fragment :=
  let sig := result.bind fun k => Signature.ofKinds? k (List.replicate b.params .int64)
  { f with
    code := some code
    entry := result.map fun _ => code.block.start
    returns := result
    sig
    callee := sig.map fun sig =>
      ⟨b.name, .installed code.number code.block.start, sig, .cdecl, .any⟩
    exits := a.exits.map Prod.fst }

/-- Generates and installs the code of a function that returns `result`. -/
def produce [Machine.BlockEncoder] (host : Host) (b : Builder) (result : Option ArgKind) :
    Finish (Option Nat) := do
  let a ← generate b
  let code ← install host b a
  modify fun c => { c with registry := c.registry.update b.name (publish b result a code) }
  return result.map fun _ => code.block.start

end Finish

/-- Finishes the function. Yields the context, and the start of the code if the function can be
    called. -/
def Building.finish [Machine.BlockEncoder] (s : Building) (supply : Supply) :
    EStateM.Result (Stop FinishError) Context (Option Nat) :=
  let idle (c : Context) : Context := { c with session := { c.session with current := none } }
  match s.builder.error with
  | some e => .error (.error (.build e)) (idle s.context)
  | none =>
    match Build.close supply.record s with
    | .error e s => .error (e.map .build) s.context
    | .ok () s =>
      let b := s.builder
      let rest : Finish (Option Nat) := do
        Finish.recordCounters b.pipeline
        modify idle
        Finish.declare b
        match b.returns.shape with
        | .conflicting =>
          Finish.report (.conflictingReturns b.name b.returns.summary)
          return none
        | .noReturn =>
          Finish.report (.noReturn b.name)
          Finish.produce supply.toHost b none
        | .single k => Finish.produce supply.toHost b (some k)
      rest s.context

end JitBackend
