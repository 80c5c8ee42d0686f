import JitBackend.Config
import JitBackend.Event
import JitBackend.Registry
import JitBackend.Session

namespace JitBackend

/-!
# Compilation contexts

What lasts from one function to the next: settings, statistics, code space, functions by name.

* `Context.create` makes a context, `Context.registerExtern` adds a native function to it;
* `Context.fragment?` and `Context.entry?` look functions up.
-/

/-- A compilation context. -/
structure Context where
  config : Config
  session : Session
  space : CodeSpace
  registry : Registry
  /-- Number of the next buffer. -/
  nextBuffer : Nat
  /-- Number of functions whose code was installed. -/
  installed : Nat
  /-- What the records of guards say. -/
  records : GuardRecords
  log : Log
  deriving DecidableEq, Repr

namespace Context

/-- A context without functions. -/
def create (config : Config) : Except Fault Context := do
  let space ← CodeSpace.create config.chunkSize
  return ⟨config, .fresh, space, .empty, 0, 0, [], #[]⟩

/-- Adds a report. -/
def report (c : Context) (e : Event) : Context :=
  { c with log := c.log.push e }

/-- Makes a native function callable; yields whether its name was free. -/
def registerExtern (c : Context) (callee : Callee) : Bool × Context :=
  match c.registry.extern? callee.name with
  | some first => (false, c.report (.externKept callee.name first.sig))
  | none =>
    match c.registry.register callee with
    | some registry => (true, { c with registry })
    | none => (false, c)

/-- The function with a name. -/
def fragment? (c : Context) (name : String) : Option Fragment :=
  c.registry.fragment? name

/-- Start of the code of a function that can be called. -/
def entry? (c : Context) (name : String) : Option Nat :=
  (c.fragment? name).bind Fragment.entry

/-- One-line summary. -/
def summary (c : Context) : String :=
  Text.record "JitContext"
    [("config", c.config.summary), ("fragments", toString c.registry.fragments.length),
     ("code", c.space.summary)]

end Context

end JitBackend
