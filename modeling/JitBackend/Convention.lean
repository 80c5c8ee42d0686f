import JitBackend.Register

namespace JitBackend

/-!
# The calling convention

Where arguments and results go at a call. Integers use six registers and floats eight, in order;
what is left over goes to the stack, eight bytes each. All declared conventions are lowered to
this one.

* `Assigner.argument` and `Assigner.result` place the next argument or result;
* `allocatable`, `calleeSaved` and the scratch registers divide up the registers.
-/

/-- Bank of registers that holds a value. -/
inductive Bank where
  | general
  | xmm
  deriving DecidableEq, Repr

namespace Bank

/-- Bank for values of a type. -/
def ofTy (t : Ty) : Bank :=
  if t.isFloat then .xmm else .general

/-- Number of the bank. -/
def index : Bank → Nat
  | .general => 0
  | .xmm => 1

end Bank

namespace Reg

/-- General-purpose register. -/
def general (id : Nat) : Reg := ⟨0, id⟩

/-- Float register. -/
def xmm (id : Nat) : Reg := ⟨1, id⟩

def rax : Reg := general 0
def rcx : Reg := general 1
def rdx : Reg := general 2
def rbx : Reg := general 3
def rsp : Reg := general 4
def rbp : Reg := general 5
def rsi : Reg := general 6
def rdi : Reg := general 7
def r8 : Reg := general 8
def r9 : Reg := general 9
def r11 : Reg := general 11
def r12 : Reg := general 12
def r13 : Reg := general 13
def r14 : Reg := general 14
def r15 : Reg := general 15
def xmm0 : Reg := xmm 0
def xmm15 : Reg := xmm 15

end Reg

namespace Convention

/-- Registers for integer arguments, in order. -/
def intArgs : List Reg := [.rdi, .rsi, .rdx, .rcx, .r8, .r9]

/-- Registers for float arguments, in order. -/
def floatArgs : List Reg := (List.range 8).map Reg.xmm

/-- Registers for integer results, in order. -/
def intResults : List Reg := [.rax, .rdx]

/-- Registers for float results, in order. -/
def floatResults : List Reg := [.xmm 0, .xmm 1]

/-- Registers that a function has to preserve. -/
def calleeSaved : List Reg := [.rbx, .r12, .r13, .r14, .r15]

/-- Scratch register for integers, never handed out. -/
def scratch : Reg := .r11

/-- Scratch register for floats, never handed out. -/
def floatScratch : Reg := .xmm15

/-- All registers that may hold values: not the stack and frame pointers, not the scratch
    registers. -/
def allocatable : RegSet :=
  .ofList (((List.range 16).map Reg.general).filter (fun r => r ∉ [.rsp, .rbp, scratch])
    ++ ((List.range 16).map Reg.xmm).filter (· ≠ floatScratch))

end Convention

/-- Place of an argument or result. -/
inductive Place where
  | register (r : Reg)
  /-- Offset from the stack pointer at the call. -/
  | stack (offset : Nat)
  | nowhere
  deriving DecidableEq, Repr

/-- An argument or result with its place. -/
structure Placement where
  bank : Bank
  /-- Size in bytes, at least four. -/
  size : Nat
  place : Place
  deriving DecidableEq, Repr

/-- What the arguments and results placed so far have taken. -/
structure Assigner where
  intArgs : Nat
  floatArgs : Nat
  /-- Bytes of stack used by arguments. -/
  stack : Nat
  intResults : Nat
  floatResults : Nat
  deriving DecidableEq, Repr

namespace Assigner

/-- Nothing is placed. -/
def fresh : Assigner := ⟨0, 0, 0, 0, 0⟩

/-- Ready for the next call. -/
def reset (a : Assigner) : Assigner :=
  { a with intArgs := 0, floatArgs := 0, stack := 0, intResults := 0, floatResults := 0 }

/-- The next register of a list, if there is one left. -/
def nextReg (regs : List Reg) (taken : Nat) : Option Reg :=
  regs[taken]?

/-- Places the next argument. -/
def argument (a : Assigner) (t : Ty) : Placement × Assigner :=
  let bank := Bank.ofTy t
  let size := max t.size 4
  match bank with
  | .general =>
    match nextReg Convention.intArgs a.intArgs with
    | some r => (⟨bank, size, .register r⟩, { a with intArgs := a.intArgs + 1 })
    | none => (⟨bank, size, .stack a.stack⟩, { a with stack := a.stack + 8 })
  | .xmm =>
    match nextReg Convention.floatArgs a.floatArgs with
    | some r => (⟨bank, size, .register r⟩, { a with floatArgs := a.floatArgs + 1 })
    | none => (⟨bank, size, .stack a.stack⟩, { a with stack := a.stack + 8 })

/-- Places the next result. -/
def result (a : Assigner) (t : Ty) : Placement × Assigner :=
  let bank := Bank.ofTy t
  let size := max t.size 4
  match bank with
  | .general =>
    match nextReg Convention.intResults a.intResults with
    | some r => (⟨bank, size, .register r⟩, { a with intResults := a.intResults + 1 })
    | none => (⟨bank, size, .nowhere⟩, a)
  | .xmm =>
    match nextReg Convention.floatResults a.floatResults with
    | some r => (⟨bank, size, .register r⟩, { a with floatResults := a.floatResults + 1 })
    | none => (⟨bank, size, .nowhere⟩, a)

/-- Bytes of stack that the arguments take, rounded up to sixteen. -/
def stackSize (a : Assigner) : Nat :=
  (a.stack + 15) / 16 * 16

/-- Places a list of arguments, first to last. -/
def arguments (a : Assigner) : List Ty → List Placement × Assigner
  | [] => ([], a)
  | t :: ts =>
    let (p, a) := a.argument t
    let (ps, a) := a.arguments ts
    (p :: ps, a)

end Assigner

end JitBackend
