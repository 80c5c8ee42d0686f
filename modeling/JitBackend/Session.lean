import JitBackend.Checked

namespace JitBackend

/-!
# Session statistics

Counters over everything compiled in a context, with the function that is being built.

* `Stats` holds the counters, `Stats.report` is their text;
* `Session` adds the current function and the distinct names seen.
-/

/-- Counters of a session. -/
structure Stats where
  functions : Nat
  codeSize : Nat
  instructions : Nat
  /-- Number of instructions compiled, by opcode name. -/
  counts : List (String × Nat)
  largestName : String
  largestSize : Nat
  registers : Nat
  spills : Nat
  calls : Nat
  hits : Nat
  simplifications : Nat
  deriving DecidableEq, Repr

namespace Stats

/-- Nothing was compiled. -/
def zero : Stats := ⟨0, 0, 0, [], "", 0, 0, 0, 0, 0, 0⟩

/-- Adds one to the count of a name. -/
def bump (name : String) : List (String × Nat) → List (String × Nat)
  | [] => [(name, 1)]
  | (n, k) :: rest => if n = name then (n, k + 1) :: rest else (n, k) :: bump name rest

/-- Counts a compiled instruction. -/
def addInstruction (s : Stats) (name : String) : Stats :=
  { s with instructions := s.instructions + 1, counts := bump name s.counts }

/-- Counts a register handed out. -/
def addRegister (s : Stats) : Stats :=
  { s with registers := s.registers + 1 }

/-- Counts a value written to its slot. -/
def addSpill (s : Stats) : Stats :=
  { s with spills := s.spills + 1 }

/-- Counts a lowered call. -/
def addCall (s : Stats) : Stats :=
  { s with calls := s.calls + 1 }

/-- The largest function, the first of several of that size. -/
def noteLargest (s : Stats) (name : String) (size : Nat) : Stats :=
  if s.largestSize < size then { s with largestName := name, largestSize := size } else s

/-- Opcode counts, most frequent first, ties by name. -/
def ranking (s : Stats) : List (String × Nat) :=
  s.counts.mergeSort fun a b => b.2 < a.2 || (a.2 == b.2 && a.1 ≤ b.1)

/-- Text of the counters. -/
def report (s : Stats) : String :=
  let lines :=
    ["Compilation Session Statistics:",
     s!"  Functions compiled: {s.functions}",
     s!"  Instructions compiled: {s.instructions}",
     s!"  Total code size: {s.codeSize} bytes",
     s!"  Registers allocated: {s.registers}",
     s!"  Spills generated: {s.spills}",
     s!"  Function calls compiled: {s.calls}",
     s!"  CSE hits: {s.hits}",
     s!"  Simplifications: {s.simplifications}"]
    ++ (if s.largestName = "" then []
        else [s!"  Largest function: {s.largestName} ({s.largestSize} bytes)"])
    ++ (if s.counts.isEmpty then []
        else "  Instruction breakdown:"
          :: (s.ranking.take 10).map fun (name, count) => s!"    {name}: {count}")
  String.join (lines.map (· ++ "\n"))

end Stats

/-- A session: counters, the function being built, the distinct names seen. -/
structure Session where
  stats : Stats
  current : Option String
  /-- Distinct names, in the order in which they were first seen. -/
  names : List String
  deriving DecidableEq, Repr

namespace Session

/-- A new session. -/
def fresh : Session := ⟨.zero, none, []⟩

/-- Counts a compiled function. -/
def recordFunction (name : String) (size : Nat) : Step Empty Session Unit := do
  modify fun s => { s with stats := { s.stats with functions := s.stats.functions + 1 } }
  let codeSize ← Step.liftFault (checkWord ((← get).stats.codeSize + size))
  modify fun s => { s with stats := { s.stats with codeSize }.noteLargest name size }

/-- Counts duplicates answered. -/
def recordHits (count : Nat) : Step Empty Session Unit := do
  let hits ← Step.liftFault (checkWord ((← get).stats.hits + count))
  modify fun s => { s with stats := { s.stats with hits } }

/-- Counts simplifications. -/
def recordSimplifications (count : Nat) : Step Empty Session Unit := do
  let simplifications ← Step.liftFault (checkWord ((← get).stats.simplifications + count))
  modify fun s => { s with stats := { s.stats with simplifications } }

/-- Notes a name and yields its number; a name seen before keeps its number. -/
def intern (s : Session) (name : String) : Nat × Session :=
  match s.names.findIdx? (· = name) with
  | some i => (i, s)
  | none => (s.names.length, { s with names := s.names ++ [name] })

end Session

end JitBackend
