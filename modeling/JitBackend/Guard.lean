import JitBackend.Text.Record

namespace JitBackend

/-!
# Guards and side exits

A guard marks a point where control leaves a function. When it is reached, the generated code
returns the address of the guard's record. The record says where the exit code is, once that is in
memory.

* `Guard` names a record by its address, `GuardRecords` holds what the records say;
* `SideExit` collects the guards of one exit and remembers the first.
-/

/-- A point where control leaves the function `origin`. -/
structure Guard where
  id : BitVec 32
  origin : String
  /-- Address of the guard's record. -/
  record : BitVec 64
  deriving DecidableEq, Repr

/-- Where the exit code of a guard is: its offset in the code of the function, and its address. -/
structure ExitPlace where
  offset : Nat
  address : Nat
  deriving DecidableEq, Repr

/-- What is known of exit code, by the address of the guard's record. -/
abbrev GuardRecords := List (BitVec 64 × ExitPlace)

/-- Notes where the exit code of guards is, in code at address `start`. -/
def GuardRecords.place (records : GuardRecords) (start : Nat) (exits : List (Guard × Nat)) :
    GuardRecords :=
  exits.foldl (fun records (g, offset) => (g.record, ⟨offset, start + offset⟩) :: records) records

/-- An exit from the function `origin`, with the function control continues in, if any. -/
structure SideExit where
  origin : String
  target : Option String
  /-- Number of the first guard attached. -/
  firstGuard : Option (BitVec 32)
  deriving DecidableEq, Repr

namespace SideExit

/-- Attaches a guard; only the first one is remembered. -/
def addGuard (e : SideExit) (id : BitVec 32) : SideExit :=
  match e.firstGuard with
  | some _ => e
  | none => { e with firstGuard := some id }

/-- One-line summary. -/
def summary (e : SideExit) : String :=
  Text.record "SideExit"
    [("from", Text.quoted e.origin),
     ("target", Text.optional (e.target.map Text.quoted)),
     ("guard", Text.optional (e.firstGuard.map fun id => toString id.toNat))]

end SideExit

end JitBackend
