import JitBackend.Machine.Encode

namespace JitBackend.Machine

/-!
# Blocks of code

What stands between instructions with labels and bytes. Where a jump goes is known by its label
only, and whether it takes the short or the long form depends on the distance. That is the work of
a block encoder, which code generation takes as given.

* `Item` is an instruction or a jump to a label, `Target` what a label stands for;
* `BlockEncoder.encode` yields the bytes of items and where each item begins, or a reason why not.
-/

/-- An instruction or a jump to a label; a jump without condition is always taken. -/
inductive Item where
  | op (i : Inst)
  | jump (cond : Option Cond) (label : Nat)
  deriving DecidableEq, Repr

/-- Where a jump goes. -/
inductive Target where
  /-- To the item at an index. -/
  | item (index : Nat)
  /-- To an address, the code being at address zero. -/
  | address (a : Nat)
  deriving DecidableEq, Repr

/-- A block in bytes. -/
structure Encoded where
  bytes : List Byte
  /-- Where each item begins. An item that was encoded as something else has no such place. -/
  offsets : Array (Option Nat)
  deriving DecidableEq, Repr

/-- An encoder of blocks, the labels standing for what `targetOf` says. -/
class BlockEncoder where
  encode (items : List Item) (targetOf : Nat → Target) : Except String Encoded

end JitBackend.Machine
