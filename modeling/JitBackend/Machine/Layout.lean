import JitBackend.Machine.Block

namespace JitBackend.Machine

/-!
# Layout of code

One way to encode blocks. Jumps have a short form for near targets and a long one. Which form a
jump gets depends on distances, and distances depend on forms. All jumps start out at a size above
both forms; then the code is passed over at most five times, and each pass settles the jumps whose
target is known to be close or far.

* `Layout.ofItems` settles the forms, `Layout.offsets` are the positions of the items;
* `Layout.bytes` are the bytes, `shrinking` the encoder.
-/

/-- Form of a jump. -/
inductive JumpForm where
  /-- Not looked at yet. -/
  | undecided
  | short
  | near
  deriving DecidableEq, Repr

namespace JumpForm

/-- Size in bytes of a jump in this form. A jump that was not looked at counts as larger than
    it can become. -/
def size (form : JumpForm) (cond : Option Cond) : Nat :=
  match form, cond with
  | .undecided, none => 6
  | .undecided, some _ => 8
  | .short, _ => 2
  | .near, none => 5
  | .near, some _ => 6

end JumpForm

/-- An item on its way to bytes. -/
inductive Slot where
  | fixed (bytes : List Byte)
  /-- A jump; a settled one keeps its form. -/
  | jump (cond : Option Cond) (target : Target) (form : JumpForm) (settled : Bool)
  deriving DecidableEq, Repr

namespace Slot

/-- Size in bytes at this moment. -/
def size : Slot → Nat
  | .fixed bytes => bytes.length
  | .jump cond _ form _ => form.size cond

end Slot

/-- Distance beyond which a backward jump is long for good. -/
def farBack : Int := -1920

/-- Distance beyond which a forward jump is long for good. -/
def farAhead : Int := 1905

/-- Whether a distance fits the short form. -/
def isShortDistance (d : Int) : Bool :=
  decide (-128 ≤ d ∧ d ≤ 127)

/-- Distance from the end of a short jump at `ip` to its target. A target ahead in the code moves
    closer by the bytes that this pass has gained so far. -/
def distance (offsets : Array Nat) (target : Target) (ip gained : Nat) : Int :=
  match target with
  | .item index =>
    let d := ((offsets[index]?.getD 0 : Nat) : Int) - (ip + 2 : Nat)
    if 0 ≤ d then d - gained else d
  | .address a => (a : Int) - (ip + 2 : Nat)

/-- A jump at distance `d` after one more look. -/
def settle (cond : Option Cond) (target : Target) (d : Int) : Slot :=
  if isShortDistance d then
    .jump cond target .short true
  else
    .jump cond target .near (decide (d < farBack ∨ farAhead < d))

/-- One slot at `ip` after one more look. -/
def revise (offsets : Array Nat) (ip gained : Nat) : Slot → Slot
  | .jump cond target form settled =>
    if settled then
      .jump cond target form settled
    else
      settle cond target (distance offsets target ip gained)
  | s => s

/-- The slots with their offsets. An offset that this pass has not reached yet is that of the
    pass before. -/
structure Layout where
  slots : List Slot
  offsets : Array Nat
  deriving DecidableEq, Repr

namespace Layout

/-- Offsets of the slots from `ip` on. -/
def offsetsFrom (ip : Nat) : List Slot → List Nat
  | [] => []
  | s :: rest => ip :: offsetsFrom (ip + s.size) rest

/-- One pass over the slots from index `i` and offset `ip` on. Yields the new slots, the new
    offsets and the bytes gained. -/
def passFrom (i ip gained : Nat) (offsets : Array Nat) : List Slot → List Slot × Array Nat × Nat
  | [] => ([], offsets, gained)
  | s :: rest =>
    let offsets := offsets.setIfInBounds i ip
    let t := revise offsets ip gained s
    let (rest, offsets, gained) :=
      passFrom (i + 1) (ip + t.size) (gained + (s.size - t.size)) offsets rest
    (t :: rest, offsets, gained)

/-- One pass over all slots; also yields the bytes gained. -/
def pass (l : Layout) : Layout × Nat :=
  let (slots, offsets, gained) := passFrom 0 0 0 l.offsets l.slots
  (⟨slots, offsets⟩, gained)

/-- At most `n` passes, up to the first one that gains nothing. -/
def passes : Nat → Layout → Layout
  | 0, l => l
  | n + 1, l =>
    let (l, gained) := l.pass
    if gained = 0 then l else passes n l

/-- Number of passes after which the forms stand as they are. -/
def maxPasses : Nat := 5

/-- The slot of an item before the first pass. -/
def slotOf (targetOf : Nat → Target) : Item → Slot
  | .op i => .fixed i.bytes
  | .jump cond label => .jump cond (targetOf label) .undecided false

/-- The layout of a list of items. -/
def ofItems (items : List Item) (targetOf : Nat → Target) : Layout :=
  let slots := items.map (slotOf targetOf)
  passes maxPasses ⟨slots, (offsetsFrom 0 slots).toArray⟩

/-- Address that a jump goes to. -/
def addressOf (l : Layout) : Target → Nat
  | .item index => l.offsets[index]?.getD 0
  | .address a => a

/-- Bytes of a jump that stands at `ip` and goes to `target`. -/
def jumpBytes (cond : Option Cond) (form : JumpForm) (ip target : Nat) : List Byte :=
  let rel := (target : Int) - (ip + form.size cond : Nat)
  match form, cond with
  | .short, none => 0xeb :: littleEndian 1 (BitVec.ofInt 32 rel)
  | .short, some c => ((7 : BitVec 4) ++ c.code) :: littleEndian 1 (BitVec.ofInt 32 rel)
  | _, none => 0xe9 :: littleEndian 4 (BitVec.ofInt 32 rel)
  | _, some c => 0x0f :: ((8 : BitVec 4) ++ c.code) :: littleEndian 4 (BitVec.ofInt 32 rel)

/-- Bytes of a slot at `ip`. -/
def slotBytes (l : Layout) (ip : Nat) : Slot → List Byte
  | .fixed bytes => bytes
  | .jump cond target form _ => jumpBytes cond form ip (l.addressOf target)

/-- All bytes. -/
def bytes (l : Layout) : List Byte :=
  (l.slots.zip l.offsets.toList).flatMap fun (s, ip) => l.slotBytes ip s

end Layout

/-- Encodes blocks by shrinking their jumps. It refuses none. -/
@[reducible] def shrinking : BlockEncoder where
  encode items targetOf :=
    let layout := Layout.ofItems items targetOf
    .ok ⟨layout.bytes, layout.offsets.map some⟩

end JitBackend.Machine
