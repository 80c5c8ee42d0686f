import JitBackend.Event
import JitBackend.Register

namespace JitBackend

/-!
# The register file

Which value owns each register. A request for a register of a bank is met with the lowest free
one; if there is none, a clock that moves through the bank picks a register to take from its
owner. Locked registers are never taken. Writing the former owner back is left to the caller.

* `RegFile.allocate` finds a register, `RegFile.assign` takes a given free one;
* `RegFile.release`, `RegFile.lock` and `RegFile.unlock` change the state of one register.
-/

/-- Why a request was refused. -/
inductive RegError where
  | noneAvailable
  | notAllocated
  | inUse
  | invalid
  | lockUnderflow
  deriving DecidableEq, Repr

/-- Wording of an error. -/
def RegError.message : RegError → String
  | .noneAvailable => "no registers available"
  | .notAllocated => "register is not allocated"
  | .inUse => "register is already in use"
  | .invalid => "invalid register"
  | .lockUnderflow => "register lock count underflow"

/-- Ownership of all registers. -/
structure RegFile where
  perBank : Nat
  banks : Nat
  /-- Registers that may be handed out. -/
  allocatable : RegSet
  /-- Registers that have an owner. -/
  used : RegSet
  /-- Registers that must not be taken from their owner. -/
  locked : RegSet
  /-- Position of the clock in each bank. -/
  clocks : Vector Nat maxBanks
  /-- Owner of each register, by position. -/
  owners : Array (Option Nat)
  /-- Number of locks on each register, by position. -/
  locks : Array Nat
  deriving DecidableEq, Repr

/-- A register handed out, and the value it was taken from. -/
structure Allocation where
  reg : Reg
  evicted : Option Nat
  deriving DecidableEq, Repr

/-- Largest number of locks on one register. -/
def maxLocks : Nat := 255

namespace RegFile

/-- A file of `banks` banks with `perBank` registers each, all of them free. -/
def create (perBank banks : Nat) (allocatable : RegSet) : Except Fault RegFile :=
  if perBank > maxPerBank then
    .error .tooManyRegisters
  else if banks > maxBanks then
    .error .tooManyBanks
  else
    .ok { perBank, banks, allocatable, used := .empty, locked := .empty,
          clocks := .replicate maxBanks 0,
          owners := .replicate (perBank * banks) none,
          locks := .replicate (perBank * banks) 0 }

/-- Number of registers. -/
def size (f : RegFile) : Nat :=
  f.perBank * f.banks

/-- Position of a register of the file. -/
def position? (f : RegFile) (r : Reg) : Option Nat :=
  if r.id < f.perBank ∧ r.linear f.perBank < f.size then some (r.linear f.perBank) else none

/-- Owner of the register at the position of `r`. -/
def owner? (f : RegFile) (r : Reg) : Option Nat :=
  f.owners[r.linear f.perBank]?.join

/-- Registers with an owner, by position. -/
def occupied (f : RegFile) : List (Reg × Nat) :=
  f.owners.toList.zipIdx.filterMap fun (o, i) =>
    o.map fun v => (⟨i / f.perBank, i % f.perBank⟩, v)

/-- Whether a register may be taken from its owner. -/
def isEvictable (f : RegFile) (exclude : RegSet) (r : Reg) : Bool :=
  f.allocatable.contains r && f.used.contains r && !f.locked.contains r && !exclude.contains r

/-- Moves a clock over at most `steps` of `perBank` registers, up to and past the first one
    accepted. Yields that register and the new position of the clock. -/
def sweep (perBank : Nat) (accept : Nat → Bool) : (steps : Nat) → (clock : Nat) → Option Nat × Nat
  | 0, clock => (none, clock)
  | steps + 1, clock =>
    let next := (clock + 1) % perBank
    if accept clock then (some clock, next) else sweep perBank accept steps next

/-- Gives a register to a value, whoever owned it. -/
def give (f : RegFile) (r : Reg) (position value : Nat) : RegFile :=
  { f with
    used := f.used.insert r
    owners := f.owners.setIfInBounds position (some value) }

/-- Takes a register from its owner and drops its locks. -/
def vacate (f : RegFile) (r : Reg) (position : Nat) : RegFile :=
  { f with
    used := f.used.erase r
    locked := f.locked.erase r
    owners := f.owners.setIfInBounds position none
    locks := f.locks.setIfInBounds position 0 }

/-! ### Operations -/

/-- Position of a register, which has to be one of the file. -/
def positionOf (r : Reg) : Step RegError RegFile Nat := do
  Step.orFail .invalid ((← get).position? r)

/-- Gives a register of the file to a value. -/
def assignAny (r : Reg) (value : Nat) : Step RegError RegFile Unit := do
  let position ← positionOf r
  modify fun f => f.give r position value

/-- Gives a free register to a value. -/
def assign (r : Reg) (value : Nat) : Step RegError RegFile Unit := do
  if (← get).used.contains r then
    Step.fail .inUse
  assignAny r value

/-- Takes a register from its owner. -/
def release (r : Reg) : Step RegError RegFile Unit := do
  let position ← positionOf r
  unless (← get).used.contains r do
    Step.fail .notAllocated
  modify fun f => f.vacate r position

/-- Moves the clock of a bank to a register that may be taken. -/
def clockVictim (bank : Nat) (exclude : RegSet) : Step RegError RegFile (Option Reg) := do
  let f ← get
  match f.clocks[bank]? with
  | none => return none
  | some clock =>
    let (hit, next) := sweep f.perBank (fun id => f.isEvictable exclude ⟨bank, id⟩) f.perBank clock
    set { f with clocks := f.clocks.setIfInBounds bank next }
    return hit.map fun id => ⟨bank, id⟩

/-- Finds a register of a bank for a value, outside of `exclude`. -/
def allocate (bank value : Nat) (exclude : RegSet) : Step RegError RegFile Allocation := do
  let f ← get
  match f.allocatable.first? bank (f.used.union exclude) with
  | some id =>
    assignAny ⟨bank, id⟩ value
    return ⟨⟨bank, id⟩, none⟩
  | none =>
    match ← clockVictim bank exclude with
    | some r =>
      let evicted := (← get).owner? r
      release r
      assignAny r value
      return ⟨r, evicted⟩
    | none => Step.fail .noneAvailable

/-- Locks a register that has an owner. -/
def lock (r : Reg) : Step RegError RegFile Unit := do
  let position ← positionOf r
  let f ← get
  unless f.used.contains r do
    Step.fail .notAllocated
  let count := f.locks[position]?.getD 0
  if count ≥ maxLocks then
    Step.fault .overflow
  set { f with
        locks := f.locks.setIfInBounds position (count + 1)
        locked := f.locked.insert r }

/-- Takes back one lock. -/
def unlock (r : Reg) : Step RegError RegFile Unit := do
  let position ← positionOf r
  let f ← get
  let count := f.locks[position]?.getD 0
  if count = 0 then
    Step.fail .lockUnderflow
  set { f with
        locks := f.locks.setIfInBounds position (count - 1)
        locked := if count = 1 then f.locked.erase r else f.locked }

/-- The file with all registers free and all clocks at their start. -/
def reset (f : RegFile) : RegFile :=
  { f with
    used := .empty
    locked := .empty
    clocks := .replicate maxBanks 0
    owners := .replicate f.owners.size none
    locks := .replicate f.locks.size 0 }

end RegFile

/-- The report about an allocation that took a register from its owner. -/
def Allocation.report (a : Allocation) (value : Nat) : List Event :=
  match a.evicted with
  | some v => [.evicted (some v) a.reg.bank a.reg.id value]
  | none => []

end JitBackend
