import JitBackend.Convention
import JitBackend.Machine.Block

namespace JitBackend.Machine

/-!
# Emitting instructions

A list of items under construction, with labels. Registers come as bank and number and are
checked here. A label is created first and bound later to the next item. An item takes one label
only; where two labels would be bound to one item, an instruction without effect goes in between.

* one operation for each instruction, `Emitter.bind`, `Emitter.jmp` and `Emitter.jcc` for jumps;
* `Emitter.prologue` and `Emitter.epilogue` set up and take down a frame;
* `Emitter.assemble` has the items encoded and yields the bytes and the offsets of the labels.
-/

/-- Why an instruction cannot be emitted. -/
inductive EncodeError where
  | invalidRegister
  | unsupported
  /-- Instructions and labels do not go together, or the block encoder refuses them. -/
  | assembly (reason : String)
  | invalidLabel
  deriving DecidableEq, Repr

/-- Wording of an error. -/
def EncodeError.message : EncodeError → String
  | .invalidRegister => "Invalid register for operation"
  | .unsupported => "Unsupported instruction or operand combination"
  | .assembly reason => "Assembly error: " ++ reason
  | .invalidLabel => "Invalid label"

/-- Items and labels so far. -/
@[ext] structure Emitter where
  items : Array Item
  /-- Item that each label is bound to. -/
  labels : Array (Option Nat)
  /-- Number of items when a label was last bound. -/
  lastBound : Option Nat
  last_le : ∀ n, lastBound = some n → n ≤ items.size
  /-- A label that waits for an item to come was the last one to be bound. -/
  placed : ∀ (l : Nat) n, labels[l]? = some (some n) → n < items.size ∨ lastBound = some n
  deriving DecidableEq, Repr

/-- Finished code. -/
structure Code where
  bytes : List Byte
  /-- Offset of each label that was bound. -/
  labels : List (Option Nat)
  deriving DecidableEq, Repr

/-- Offset of a label, if it was bound. -/
def Code.labelOffset? (c : Code) (label : Nat) : Option Nat :=
  c.labels[label]?.join

/-- A computation that emits code. -/
abbrev Emit := Step EncodeError Emitter

namespace Emitter

/-- No items and no labels. -/
def empty : Emitter where
  items := #[]
  labels := #[]
  lastBound := none
  last_le _ h := nomatch h
  placed _ _ h := nomatch h

/-- Number of items. -/
def count (e : Emitter) : Nat :=
  e.items.size

/-- The same labels with at least as many items. -/
def withItems (e : Emitter) (items : Array Item) (h : e.items.size ≤ items.size) : Emitter where
  items
  labels := e.labels
  lastBound := e.lastBound
  last_le n hn := Nat.le_trans (e.last_le n hn) h
  placed l n hn := (e.placed l n hn).imp_left (Nat.lt_of_lt_of_le · h)

/-- Adds an item. -/
def pushItem (i : Item) : Emit Unit :=
  modify fun e => e.withItems (e.items.push i) (by simp)

/-- Adds an instruction. -/
def emit (i : Inst) : Emit Unit :=
  pushItem (.op i)

/-- The general-purpose register with this bank and number. -/
def gpr (r : Reg) : Emit Gpr :=
  if r.bank = 0 ∧ r.id < 16 then pure ⟨BitVec.ofNat 4 r.id⟩ else Step.fail .invalidRegister

/-- The float register with this bank and number. -/
def xmm (r : Reg) : Emit Xmm :=
  if r.bank = 1 ∧ r.id < 16 then pure ⟨BitVec.ofNat 4 r.id⟩ else Step.fail .invalidRegister

/-- Memory relative to a register. -/
def mem (base : Reg) (disp : BitVec 32) : Emit Mem :=
  return ⟨← gpr base, disp⟩

/-! ### Labels and jumps -/

/-- The emitter with one more label. -/
def withLabel (e : Emitter) : Emitter where
  items := e.items
  labels := e.labels.push none
  lastBound := e.lastBound
  last_le := e.last_le
  placed l n h := by
    rw [Array.getElem?_push] at h
    split at h
    · cases h
    · exact e.placed l n h

/-- The emitter with a label at the next item. -/
def withPlace (e : Emitter) (label : Nat) : Emitter where
  items := e.items
  labels := e.labels.setIfInBounds label (some e.count)
  lastBound := some e.count
  last_le n h := by cases h; exact Nat.le_refl _
  placed l n h := by
    rw [Array.getElem?_setIfInBounds] at h
    split at h
    · split at h
      · cases h
        exact .inr rfl
      · cases h
    · have hle : n ≤ e.count := (e.placed l n h).elim Nat.le_of_lt (e.last_le n)
      exact (Nat.lt_or_eq_of_le hle).imp_right (congrArg some ·.symm)

/-- Creates a label. -/
def newLabel : Emit Nat :=
  modifyGet fun e => (e.labels.size, e.withLabel)

/-- Puts a label at the next item, which takes no second one. -/
def setLabel (label : Nat) : Emit Unit := do
  let e ← get
  if e.labels.contains (some e.count) then
    Step.fail (.assembly "only one label per instruction is allowed")
  set (e.withPlace label)

/-- Binds a label to the next item. -/
def bind (label : Nat) : Emit Unit := do
  if (← get).lastBound = some (← get).count then
    emit .nop
  match (← get).labels[label]? with
  | some none => setLabel label
  | _ => Step.fail .invalidLabel

/-- Requires a label that was created. -/
def checkLabel (label : Nat) : Emit Unit := do
  unless label < (← get).labels.size do
    Step.fail .invalidLabel

/-- Jump to a label. -/
def jmp (label : Nat) : Emit Unit := do
  checkLabel label
  pushItem (.jump none label)

/-- Jump to a label if a condition holds. -/
def jcc (cond : Cond) (label : Nat) : Emit Unit := do
  checkLabel label
  pushItem (.jump (some cond) label)

/-! ### Integer instructions -/

/-- Copy. -/
def mov (w : Width) (dst src : Reg) : Emit Unit := do
  emit (.mov w (← gpr dst) (← gpr src))

/-- Load of a 32-bit constant. -/
def movImm32 (dst : Reg) (imm : BitVec 32) : Emit Unit := do
  emit (.movImm32 (← gpr dst) imm)

/-- Load of a 64-bit constant. -/
def movImm64 (dst : Reg) (imm : BitVec 64) : Emit Unit := do
  emit (.movImm64 (← gpr dst) imm)

/-- Sign extension from 32 to 64 bits. -/
def movsxd (dst src : Reg) : Emit Unit := do
  emit (.movsxd (← gpr dst) (← gpr src))

/-- Zero extension of the low byte. -/
def movzxByte (dst src : Reg) : Emit Unit := do
  emit (.movzxByte (← gpr dst) (← gpr src))

/-- Integer load. -/
def load (width : MemWidth) (signed : Bool) (dst base : Reg) (disp : BitVec 32) : Emit Unit := do
  let src ← mem base disp
  emit (.load width signed (← gpr dst) src)

/-- Integer store. -/
def store (width : MemWidth) (base : Reg) (disp : BitVec 32) (src : Reg) : Emit Unit := do
  let dst ← mem base disp
  emit (.store width dst (← gpr src))

/-- Address computation. -/
def lea (dst base : Reg) (disp : BitVec 32) : Emit Unit := do
  emit (.lea (← gpr dst) (← mem base disp))

/-- Integer operation. -/
def alu (op : AluOp) (w : Width) (dst src : Reg) : Emit Unit := do
  emit (.alu op w (← gpr dst) (← gpr src))

/-- Integer operation with a constant. -/
def aluImm (op : AluOp) (w : Width) (dst : Reg) (imm : BitVec 32) : Emit Unit := do
  emit (.aluImm op w (← gpr dst) imm)

/-- Multiplication. -/
def imul (w : Width) (dst src : Reg) : Emit Unit := do
  emit (.imul w (← gpr dst) (← gpr src))

/-- Multiplication by a constant. -/
def imulImm (w : Width) (dst src : Reg) (imm : BitVec 32) : Emit Unit := do
  emit (.imulImm w (← gpr dst) (← gpr src) imm)

/-- Negation or complement. -/
def unary (op : IntUnary) (w : Width) (dst : Reg) : Emit Unit := do
  emit (.unary op w (← gpr dst))

/-- Shift by the count register. -/
def shiftCl (op : ShiftOp) (w : Width) (dst : Reg) : Emit Unit := do
  emit (.shiftCl op w (← gpr dst))

/-- Shift by a constant, taken modulo the width. -/
def shiftImm (op : ShiftOp) (w : Width) (dst : Reg) (amount : BitVec 8) : Emit Unit := do
  emit (.shiftImm op w (← gpr dst) (BitVec.ofNat 6 (amount.toNat % w.bits)))

/-- Sign extension of the accumulator, then division. -/
def idiv (w : Width) (divisor : Reg) : Emit Unit := do
  emit (.signExtend w)
  emit (.idiv w (← gpr divisor))

/-- Conjunction for its flags. -/
def test (w : Width) (a b : Reg) : Emit Unit := do
  emit (.test w (← gpr a) (← gpr b))

/-- Condition into the low byte. -/
def setcc (cond : Cond) (dst : Reg) : Emit Unit := do
  emit (.setcc cond (← gpr dst))

/-- Conjunction of low bytes. -/
def andByte (dst src : Reg) : Emit Unit := do
  emit (.andByte (← gpr dst) (← gpr src))

/-- Copy if the last result was not zero. -/
def cmovne (w : Width) (dst src : Reg) : Emit Unit := do
  emit (.cmovne w (← gpr dst) (← gpr src))

/-! ### Float instructions -/

/-- Copy. -/
def movaps (dst src : Reg) : Emit Unit := do
  emit (.movaps (← xmm dst) (← xmm src))

/-- Exclusive or. -/
def xorps (dst src : Reg) : Emit Unit := do
  emit (.xorps (← xmm dst) (← xmm src))

/-- Float load. -/
def loadFloat (s : FloatSize) (dst base : Reg) (disp : BitVec 32) : Emit Unit := do
  let src ← mem base disp
  emit (.loadFloat s (← xmm dst) src)

/-- Float store. -/
def storeFloat (s : FloatSize) (base : Reg) (disp : BitVec 32) (src : Reg) : Emit Unit := do
  let dst ← mem base disp
  emit (.storeFloat s dst (← xmm src))

/-- Float operation. -/
def floatArith (op : FloatOp) (s : FloatSize) (dst src : Reg) : Emit Unit := do
  emit (.floatArith op s (← xmm dst) (← xmm src))

/-- Float comparison. -/
def ucomis (s : FloatSize) (a b : Reg) : Emit Unit := do
  emit (.ucomis s (← xmm a) (← xmm b))

/-- Signed integer to float. -/
def intToFloat (s : FloatSize) (w : Width) (dst src : Reg) : Emit Unit := do
  emit (.intToFloat s w (← xmm dst) (← gpr src))

/-- Float to signed integer. -/
def floatToInt (w : Width) (s : FloatSize) (dst src : Reg) : Emit Unit := do
  emit (.floatToInt w s (← gpr dst) (← xmm src))

/-- Change of float size. -/
def resize (result : FloatSize) (dst src : Reg) : Emit Unit := do
  emit (.resize result (← xmm dst) (← xmm src))

/-- Bits of an integer register into a float register. -/
def movBits (w : Width) (dst src : Reg) : Emit Unit := do
  emit (.movBits w (← xmm dst) (← gpr src))

/-! ### Calls and frames -/

/-- Call through a register. -/
def call (target : Reg) : Emit Unit := do
  emit (.call (← gpr target))

/-- Push onto the stack. -/
def push (r : Reg) : Emit Unit := do
  emit (.push (← gpr r))

/-- Pop from the stack. -/
def pop (r : Reg) : Emit Unit := do
  emit (.pop (← gpr r))

/-- Return. -/
def ret : Emit Unit :=
  emit .ret

/-- Trap. -/
def ud2 : Emit Unit :=
  emit .ud2

/-- Sets up a frame: pushes the frame base and the preserved registers, then makes room. -/
def prologue (saved : List Reg) (size : Nat) : Emit Unit := do
  push .rbp
  mov .w64 .rbp .rsp
  saved.forM push
  if 0 < size then
    if size < 2 ^ 31 then
      aluImm .sub .w64 .rsp (BitVec.ofNat 32 size)
    else
      Step.fail .unsupported

/-- Takes down a frame and returns. -/
def epilogue (saved : List Reg) : Emit Unit := do
  lea .rsp .rbp (BitVec.ofInt 32 (-8 * saved.length))
  saved.reverse.forM pop
  pop .rbp
  ret

/-! ### Finished code -/

/-- What a label stands for. One that was never bound stands for an address after its number. -/
def targetOf (e : Emitter) (label : Nat) : Target :=
  match e.labels[label]?.join with
  | some index => .item index
  | none => .address (label + 1)

/-- The items with one more at the end if a label is bound there. -/
def closed (e : Emitter) : Array Item :=
  if e.lastBound = some e.count then e.items.push (.op .nop) else e.items

/-- Offset of an item, which has to fit into 32 bits. -/
def offsetOf (block : Encoded) (index : Nat) : Except EncodeError Nat :=
  match block.offsets[index]?.join with
  | some offset => if offset < 2 ^ 32 then .ok offset else .error .unsupported
  | none => .error (.assembly "label without an instruction")

/-- Bytes and label offsets. -/
def assemble [BlockEncoder] (e : Emitter) : Except EncodeError Code := do
  if e.labels.contains (some e.closed.size) then
    .error (.assembly "label without an instruction")
  let block ← (BlockEncoder.encode e.closed.toList e.targetOf).mapError .assembly
  let labels ← e.labels.toList.mapM fun bound => bound.mapM (offsetOf block)
  return ⟨block.bytes, labels⟩

end Emitter

end JitBackend.Machine
