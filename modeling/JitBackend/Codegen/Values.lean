import JitBackend.Buffer
import JitBackend.Codegen.State

namespace JitBackend

/-!
# Values in registers

Values are cached in registers while straight-line code runs. A value is written to its home
only when its register is needed for something else while uses are still to come, or where
control flow meets.

* `Gen.useReg` brings an operand into a register and locks it, `Gen.finishUses` undoes the locks
  and counts the uses;
* `Gen.defReg` and `Gen.define` find a register for a result and record that it is there;
* `Gen.syncAll` writes everything home, `Gen.clearAll` forgets what registers hold.
-/

namespace Gen

open Machine (Emitter)

/-- Displacement of an offset from the frame base. -/
def displacement (offset : Int) : BitVec 32 :=
  BitVec.ofInt 32 offset

/-- State of the value of the instruction at a position. -/
def valueOf (index : Nat) : Gen ValueState := do
  Step.orFail (.allocation (.noValue index)) ((← get).values.get? index)

/-- Changes the state of a value. -/
def modifyValue (index : Nat) (f : ValueState → ValueState) : Gen Unit := do
  let _ ← valueOf index
  modify fun s => { s with values := s.values.modify index f }

/-- Loads a value of a type from a slot. -/
def loadFrom (t : Ty) (offset : Int) (r : Reg) : Gen Unit :=
  match t with
  | .val .int32 => emit (Emitter.load .b32 false r .rbp (displacement offset))
  | .val .int64 => emit (Emitter.load .b64 false r .rbp (displacement offset))
  | .val (.float s) => emit (Emitter.loadFloat s r .rbp (displacement offset))
  | .void => pure ()

/-- Stores a value of a type at an offset from a register. -/
def storeTo (t : Ty) (base : Reg) (offset : Int) (r : Reg) : Gen Unit :=
  match t with
  | .val .int32 => emit (Emitter.store .b32 base (displacement offset) r)
  | .val .int64 => emit (Emitter.store .b64 base (displacement offset) r)
  | .val (.float s) => emit (Emitter.storeFloat s base (displacement offset) r)
  | .void => pure ()

/-- Computes a value again. Float constants go through the integer scratch register. -/
def rematerialize (r : Reg) : Remat → Gen Unit
  | .const (.int32 v) => emit (Emitter.movImm32 r v)
  | .const (.int64 v) => emit (Emitter.movImm64 r v)
  | .const (.float64 p) => do
    emit (Emitter.movImm64 Convention.scratch p)
    emit (Emitter.movBits .w64 r Convention.scratch)
  | .const (.float32 p) => do
    emit (Emitter.movImm32 Convention.scratch p)
    emit (Emitter.movBits .w32 r Convention.scratch)
  | .frameAddr offset => emit (Emitter.lea r .rbp (displacement offset))

/-- Puts the value at a position into a register, from its register or its home. -/
def fill (index : Nat) (r : Reg) : Gen Unit := do
  let v ← valueOf index
  match v.reg with
  | some cached =>
    if cached ≠ r then
      if v.ty.isFloat then
        emit (Emitter.movaps r cached)
      else
        emit (Emitter.mov .w64 r cached)
  | none =>
    match v.home with
    | .remat remat => rematerialize r remat
    | .slot offset => loadFrom v.ty offset r

/-- Writes a value home from its register if the home is out of date. -/
def writeBack (index : Nat) (r : Reg) : Gen Unit := do
  let v ← valueOf index
  match v.home with
  | .slot offset =>
    if v.needsWriteback then
      storeTo v.ty .rbp offset r
      count Stats.addSpill
  | .remat _ => pure ()
  modifyValue index fun v => { v with modified := false }

/-- Finds a register outside of `exclude` for the value at a position. -/
def allocReg (t : Ty) (index : Nat) (exclude : RegSet) : Gen Reg := do
  let a ← registers (RegFile.allocate (Bank.ofTy t).index index exclude)
  (a.report index).forM report
  match a.evicted with
  | some owner =>
    writeBack owner a.reg
    modifyValue owner fun v => { v with reg := none }
  | none => pure ()
  count Stats.addRegister
  return a.reg

/-- Empties a register. -/
def evict (r : Reg) : Gen Unit := do
  match (← get).regs.owner? r with
  | some owner =>
    writeBack owner r
    modifyValue owner fun v => { v with reg := none }
    registers (RegFile.release r)
  | none => pure ()

/-- Brings an operand into a register, which stays locked until `finishUses`. -/
def useReg (h : Handle) (exclude : RegSet) : Gen Reg := do
  let v ← valueOf h.index
  let r ← match v.reg with
    | some r => pure r
    | none => do
      let r ← allocReg v.ty h.index exclude
      fill h.index r
      modifyValue h.index fun v => { v with reg := some r, modified := false }
      pure r
  registers (RegFile.lock r)
  modify fun s => { s with pinned := s.pinned ++ [r] }
  return r

/-- Brings an operand into any register. -/
def useAny (h : Handle) : Gen Reg :=
  useReg h .empty

/-- Counts one use of a value and frees its register if it was the last. -/
def retire (h : Handle) : Gen Unit := do
  let (freed, values) := (← get).values.consume h.index
  modify fun s => { s with values }
  match freed with
  | some r => registers (RegFile.release r)
  | none => pure ()

/-- Undoes the locks of the instruction at hand and counts one use of each operand. -/
def finishUses (ops : List Handle) : Gen Unit := do
  let pinned := (← get).pinned
  modify fun s => { s with pinned := [] }
  pinned.forM fun r => registers (RegFile.unlock r)
  ops.forM retire

/-- Finds a register outside of `exclude` for the result of the instruction at a position. -/
def defReg (index : Nat) (exclude : RegSet) : Gen Reg := do
  allocReg (← valueOf index).ty index exclude

/-- Finds any register for the result of the instruction at a position. -/
def defAny (index : Nat) : Gen Reg :=
  defReg index .empty

/-- Records that a register holds the new value of the instruction at a position. -/
def define (index : Nat) (r : Reg) : Gen Unit := do
  let v ← valueOf index
  if v.usesLeft = 0 then
    modifyValue index fun v => { v with reg := none, modified := false }
    registers (RegFile.release r)
  else
    modifyValue index fun v => { v with reg := some r, modified := true }

/-- Writes all values home; registers keep them. -/
def syncAll : Gen Unit := do
  (← get).regs.occupied.forM fun (r, owner) => writeBack owner r

/-- Forgets what registers hold. -/
def clearAll : Gen Unit := do
  (← get).regs.occupied.forM fun (_, owner) =>
    modifyValue owner fun v => { v with reg := none, modified := false }
  modify fun s => { s with regs := s.regs.reset }

end Gen

end JitBackend
