import JitBackend.Buffer
import JitBackend.CodeSpace

namespace JitBackend

/-!
# Functions by name

The functions built in a context and the native functions registered with it. Calls look a name
up among the former first.

* `Fragment` is a function with its instructions, code and exits;
* `Registry.declare` starts a function over, `Registry.update` changes it;
* `Registry.register` adds a native function, the first one of a name staying in effect;
* `Registry.resolve` is what a call sees.
-/

/-- Code in memory. -/
structure InstalledCode where
  /-- How many functions were installed before. -/
  number : Nat
  block : CodeBlock
  bytes : List (BitVec 8)
  deriving DecidableEq, Repr

/-- A function built in a context. -/
structure Fragment where
  name : String
  /-- The instructions that the code was generated from. -/
  buffer : Option Buffer
  code : Option InstalledCode
  /-- Start of the code, if it can be called. -/
  entry : Option Nat
  returns : Option ArgKind
  sig : Option Signature
  /-- What calls of this function see. -/
  callee : Option Callee
  /-- Guards of the exits that have code. -/
  exits : List Guard
  deriving DecidableEq, Repr

namespace Fragment

/-- A function of which only the name is known. -/
def fresh (name : String) : Fragment :=
  ⟨name, none, none, none, none, none, none, []⟩

/-- Whether the function can be called. -/
def isCallable (f : Fragment) : Bool :=
  f.entry.isSome && f.callee.isSome

/-- The function after a cell was bound to a label. -/
def assign (f : Fragment) (place : BitVec 64) (label : Handle) : Fragment :=
  { f with buffer := f.buffer.map (·.assign place label) }

end Fragment

/-- The functions of a context. -/
structure Registry where
  fragments : List Fragment
  /-- Native functions. -/
  externs : List Callee
  deriving DecidableEq, Repr

namespace Registry

/-- No functions. -/
def empty : Registry := ⟨[], []⟩

/-- The function with a name. -/
def fragment? (r : Registry) (name : String) : Option Fragment :=
  r.fragments.find? fun f => f.name == name

/-- The native function with a name. -/
def extern? (r : Registry) (name : String) : Option Callee :=
  r.externs.find? fun c => c.name == name

/-- Starts a function over; an earlier one of the name is gone. -/
def declare (r : Registry) (name : String) : Registry :=
  { r with fragments := (r.fragments.filter fun f => f.name != name) ++ [.fresh name] }

/-- Changes the function with a name. -/
def update (r : Registry) (name : String) (f : Fragment → Fragment) : Registry :=
  { r with fragments := r.fragments.map fun g => if g.name = name then f g else g }

/-- The functions after a cell was bound to a label. -/
def assign (r : Registry) (place : BitVec 64) (label : Handle) : Registry :=
  { r with fragments := r.fragments.map (·.assign place label) }

/-- Adds a native function unless there is one of its name. -/
def register (r : Registry) (c : Callee) : Option Registry :=
  match r.extern? c.name with
  | some _ => none
  | none => some { r with externs := r.externs ++ [c] }

/-- What a call of a name sees. -/
def resolve (r : Registry) (name : String) : Except BuildError Callee :=
  match r.fragment? name with
  | some f =>
    match f.callee with
    | some c => .ok c
    | none => .error (.notCallable name)
  | none =>
    match r.extern? name with
    | some c => .ok c
    | none => .error (.unknownFunction name)

end Registry

end JitBackend
