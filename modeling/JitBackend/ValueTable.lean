import JitBackend.Const
import JitBackend.Register

namespace JitBackend

/-!
# Places of values

Where each value of a function lives while code is generated for it: a home that it can always
be fetched from, the register that holds it now, and the number of uses that are still to come.

* `Home` is a slot of the frame or a way to compute the value again;
* `ValueTable.consume` counts a use and yields the register of a value that just died.
-/

/-- A value that is computed again at each use. -/
inductive Remat where
  | const (c : Const)
  /-- Address of a stack area, as an offset from the frame base. -/
  | frameAddr (offset : Int)
  deriving DecidableEq, Repr

/-- One-line summary; floats show their bit patterns. -/
def Remat.summary : Remat → String
  | .const (.int32 v) => "ImmI(" ++ toString v.toInt ++ ")"
  | .const (.int64 v) => "ImmQ(" ++ toString v.toInt ++ ")"
  | .const (.float64 p) => "ImmD(" ++ toString p.toNat ++ ")"
  | .const (.float32 p) => "ImmF(" ++ toString p.toNat ++ ")"
  | .frameAddr offset => "FrameAddr(" ++ toString offset ++ ")"

/-- Where a value can always be had from. -/
inductive Home where
  /-- A slot at an offset from the frame base. -/
  | slot (offset : Int)
  | remat (r : Remat)
  deriving DecidableEq, Repr

/-- Offset of a slot. -/
def Home.slot? : Home → Option Int
  | .slot offset => some offset
  | .remat _ => none

/-- The way to compute the value again. -/
def Home.remat? : Home → Option Remat
  | .slot _ => none
  | .remat r => some r

/-- Where one value lives and how long. -/
structure ValueState where
  ty : Ty
  home : Home
  /-- Register that holds the value. -/
  reg : Option Reg
  /-- The register is newer than the home. -/
  modified : Bool
  /-- Uses still to come. -/
  usesLeft : Nat
  deriving DecidableEq, Repr

namespace ValueState

/-- A value at home, with the given number of uses to come. -/
def atHome (ty : Ty) (home : Home) (uses : Nat) : ValueState :=
  ⟨ty, home, none, false, uses⟩

/-- Whether the register has to be written to the home before it is used for something else. -/
def needsWriteback (v : ValueState) : Bool :=
  v.modified && decide (0 < v.usesLeft) && v.home.slot?.isSome

end ValueState

/-- The values of a function, by number. -/
structure ValueTable where
  states : Array (Option ValueState)
  deriving DecidableEq, Repr

namespace ValueTable

/-- A table with room for `count` values and none in it. -/
def empty (count : Nat) : ValueTable :=
  ⟨.replicate count none⟩

/-- State of a value. -/
def get? (t : ValueTable) (value : Nat) : Option ValueState :=
  t.states[value]?.join

/-- Sets the state of a value; the table grows if there is no room. -/
def insert (t : ValueTable) (value : Nat) (v : ValueState) : ValueTable :=
  let states := t.states ++ Array.replicate (value + 1 - t.states.size) none
  ⟨states.setIfInBounds value (some v)⟩

/-- Changes the state of a value that is in the table. -/
def modify (t : ValueTable) (value : Nat) (f : ValueState → ValueState) : ValueTable :=
  ⟨t.states.modify value (Option.map f)⟩

/-- Counts a use. If it was the last one, the register of the value is given up and yielded. -/
def consume (t : ValueTable) (value : Nat) : Option Reg × ValueTable :=
  match t.get? value with
  | none => (none, t)
  | some v =>
    if v.usesLeft ≤ 1 then
      (v.reg, t.modify value fun v => { v with usesLeft := 0, modified := false, reg := none })
    else
      (none, t.modify value fun v => { v with usesLeft := v.usesLeft - 1 })

/-- Number of values in the table. -/
def size (t : ValueTable) : Nat :=
  t.states.countP Option.isSome

end ValueTable

end JitBackend
