import JitBackend.Convention

namespace JitBackend

/-!
# Stack frames

The frame of one function. Above the frame base stand the return address and the parameters
passed on the stack; below it the preserved registers, then slots and stack areas growing down,
and at the bottom the arguments of calls. Offsets are signed and sizes unsigned 32-bit numbers;
what does not fit is a fault.

* `Frame.reserve` makes room for a slot or an area, `Frame.reserveOutgoing` for call arguments;
* `Frame.total` is the distance from the frame base to the stack pointer.
-/

/-- The frame of one function. -/
structure Frame where
  /-- Preserved registers, in the order in which they are pushed. -/
  saved : List Reg
  /-- Bytes taken from the stack pointer after the pushes. -/
  size : Nat
  /-- Lowest offset in use, from the frame base. -/
  lowest : Int
  /-- Bytes for the arguments of calls. -/
  outgoing : Nat
  deriving DecidableEq, Repr

namespace Frame

/-- The frame that holds nothing but the preserved registers. -/
def initial : Frame :=
  ⟨Convention.calleeSaved, 0, -8 * Convention.calleeSaved.length, 0⟩

/-- Bytes that the pushes of the preserved registers take. -/
def pushed (f : Frame) : Nat :=
  8 * f.saved.length

/-- Makes room for `size` bytes, rounded up to eight, and yields the offset of the lowest one.
    Sizes of 2^31 and more count as negative. -/
def reserve (f : Frame) (size : Nat) : Except Fault (Int × Frame) := do
  let bytes ← checkUnsigned32 (roundUp (max size 1) 8)
  let lowest ← checkSigned32 (f.lowest - (BitVec.ofNat 32 bytes).toInt)
  return (lowest, { f with lowest })

/-- Makes room for the arguments of a call. -/
def reserveOutgoing (f : Frame) (bytes : Nat) : Frame :=
  { f with outgoing := max f.outgoing bytes }

/-- Bytes between the frame base and the stack pointer. -/
def total (f : Frame) : Except Fault Nat := do
  let depth ← checkSigned32 (-f.lowest)
  let used ← checkUnsigned32 ((BitVec.ofInt 32 depth).toNat + f.outgoing)
  checkUnsigned32 (roundUp used 16)

/-- Settles the number of bytes taken from the stack pointer after the pushes. -/
def settle (f : Frame) : Except Fault Frame := do
  let total ← f.total
  if total < f.pushed then
    throw .overflow
  return { f with size := total - f.pushed }

end Frame

end JitBackend
