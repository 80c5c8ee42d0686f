import JitBackend.Machine.Emitter
import JitBackend.Proofs.Interpreter
import JitBackend.Proofs.Memory

namespace JitBackend.Machine

/-!
# Running machine code

What the machine instructions do to registers and memory. Float arithmetic is the model that
linear code uses. A callee is known only by its reply: it sees the places of arguments and the
memory that is not hidden from it, and may change everything but the preserved registers and
what is hidden. Flags are kept where generated code reads them and unknown elsewhere.

* `exec` — one instruction that is not a jump, `step` — one item of a program;
* `Reaches` — any number of steps;
* `Observation` — what can be observed of a run: accesses to memory that is not hidden, and calls.
-/

/-- The flags that conditions read. -/
structure Flags where
  zero : Bool
  sign : Bool
  overflow : Bool
  carry : Bool
  parity : Bool
  deriving DecidableEq, Repr

namespace Flags

/-- Flags after a subtraction. -/
def ofSub {n : Nat} (a b : BitVec n) : Flags :=
  ⟨a - b == 0, (a - b).msb, a.ssubOverflow b, a.ult b, false⟩

/-- Flags after a conjunction. -/
def ofAnd {n : Nat} (a b : BitVec n) : Flags :=
  ⟨a &&& b == 0, (a &&& b).msb, false, false, false⟩

/-- Flags after a comparison of floats. -/
def ofOrder : FloatOrder → Flags
  | .unordered => ⟨true, false, false, true, true⟩
  | .greater => ⟨false, false, false, false, false⟩
  | .less => ⟨false, false, false, true, false⟩
  | .equal => ⟨true, false, false, false, false⟩

end Flags

/-- Whether a condition holds. -/
def Cond.holds (f : Flags) : Cond → Bool
  | .e => f.zero
  | .ne => !f.zero
  | .l => f.sign != f.overflow
  | .le => f.zero || f.sign != f.overflow
  | .g => !f.zero && f.sign == f.overflow
  | .ge => f.sign == f.overflow
  | .b => f.carry
  | .be => f.carry || f.zero
  | .a => !f.carry && !f.zero
  | .ae => !f.carry
  | .np => !f.parity

/-- What a callee finds when it is entered: registers and the words above the stack pointer. -/
structure Arrival where
  gpr : Gpr → BitVec 64
  xmm : Xmm → BitVec 128
  stack : Nat → BitVec 64

/-- What a callee leaves behind. -/
structure Reply where
  gpr : Gpr → BitVec 64
  xmm : Xmm → BitVec 128
  mem : Memory

/-- What can be observed of a step. -/
inductive Observation where
  /-- The `n` bytes at an address were read as a word. -/
  | load (address : BitVec 64) (n : Nat) (word : BitVec 64)
  /-- The low `n` bytes of a word were written to an address. -/
  | store (address : BitVec 64) (n : Nat) (word : BitVec 64)
  | call (target : BitVec 64) (a : Arrival)

/-- What code runs in. -/
structure Surroundings where
  float : FloatModel
  /-- Addresses that callees do not touch. -/
  hidden : BitVec 64 → Bool
  /-- Callees, by address. -/
  reply : BitVec 64 → Arrival → Memory → Reply

/-- Registers, memory and what was observed so far. -/
structure State where
  gpr : Gpr → BitVec 64
  xmm : Xmm → BitVec 128
  flags : Option Flags
  mem : Memory
  trace : List Observation

/-- Number of bytes of an access. -/
def MemWidth.bytes : MemWidth → Nat
  | .b8 => 1
  | .b16 => 2
  | .b32 => 4
  | .b64 => 8

/-- What an integer load puts into a register. -/
def MemWidth.extend (width : MemWidth) (signed : Bool) (word : BitVec 64) : BitVec 64 :=
  match width, signed with
  | .b8, true => ((word.setWidth 8).signExtend 32).setWidth 64
  | .b16, true => ((word.setWidth 16).signExtend 32).setWidth 64
  | _, _ => word

/-- Registers that a callee preserves. -/
def Gpr.isPreserved (r : Gpr) : Bool :=
  r.code.toNat ∈ [3, 4, 5, 12, 13, 14, 15]

/-- Stack pointer. -/
def Gpr.rsp : Gpr := ⟨4⟩

/-- Data register. -/
def Gpr.rdx : Gpr := ⟨2⟩

/-- Count register. -/
def Gpr.rcx : Gpr := ⟨1⟩

namespace State

/-- The low bits of a register. -/
def word (m : State) (w : Width) (r : Gpr) : BitVec w.bits :=
  (m.gpr r).setWidth w.bits

/-- Replaces a register. -/
def setGpr (m : State) (r : Gpr) (v : BitVec 64) : State :=
  { m with gpr := Function.update m.gpr r v }

/-- Writes a register; a 32-bit write clears the upper half. -/
def setWord (m : State) (w : Width) (r : Gpr) (v : BitVec w.bits) : State :=
  m.setGpr r (v.setWidth 64)

/-- The low bits of a float register. -/
def lane (m : State) (s : FloatSize) (x : Xmm) : BitVec s.bits :=
  (m.xmm x).setWidth s.bits

/-- Replaces a float register. -/
def setXmm (m : State) (x : Xmm) (v : BitVec 128) : State :=
  { m with xmm := Function.update m.xmm x v }

/-- Writes the low bits of a float register and keeps the others. -/
def setLane (m : State) (s : FloatSize) (x : Xmm) (v : BitVec s.bits) : State :=
  m.setXmm x ((m.xmm x >>> s.bits <<< s.bits) ||| v.setWidth 128)

/-- Sets the flags, or forgets them. -/
def withFlags (m : State) (f : Option Flags) : State :=
  { m with flags := f }

/-- Address of a memory operand. -/
def address (m : State) (a : Mem) : BitVec 64 :=
  m.gpr a.base + a.disp.signExtend 64

/-- The word of `n` bytes at an address. -/
def read (m : State) (a : BitVec 64) (n : Nat) : BitVec 64 :=
  m.mem.read a n

/-- Notes an access unless it is to hidden memory. -/
def observe (m : State) (c : Surroundings) (a : BitVec 64) (e : Observation) : State :=
  if c.hidden a then m else { m with trace := m.trace ++ [e] }

/-- Notes that `n` bytes at an address are read. -/
def observeLoad (m : State) (c : Surroundings) (a : BitVec 64) (n : Nat) : State :=
  m.observe c a (.load a n (m.read a n))

/-- Writes the low `n` bytes of a word to an address. -/
def write (m : State) (c : Surroundings) (a : BitVec 64) (n : Nat) (v : BitVec 64) : State :=
  { m with mem := m.mem.write a n v }.observe c a (.store a n (Memory.lowBytes n v))

/-- What a callee finds. -/
def arrival (m : State) : Arrival :=
  ⟨m.gpr, m.xmm, fun n => m.read (m.gpr .rsp + BitVec.ofNat 64 n) 8⟩

/-- Registers and memory after a callee has replied. -/
def resume (m : State) (c : Surroundings) (r : Reply) : State :=
  { m with
    gpr := fun q => if q.isPreserved then m.gpr q else r.gpr q
    xmm := r.xmm
    flags := none
    mem := fun x => if c.hidden x then m.mem x else r.mem x }

end State

/-- Memory as others see it: hidden bytes read as zero. -/
def Surroundings.visible (c : Surroundings) (mem : Memory) : Memory := fun x =>
  if c.hidden x then 0 else mem x

/-- Result of an integer operation of two operands. -/
def AluOp.apply {n : Nat} (op : AluOp) (a b : BitVec n) : BitVec n :=
  match op with
  | .add => a + b
  | .sub => a - b
  | .and => a &&& b
  | .or => a ||| b
  | .xor => a ^^^ b
  | .cmp => a

/-- An integer operation on a register and a word. -/
def execAlu (op : AluOp) (w : Width) (dst : Gpr) (b : BitVec w.bits) (m : State) : State :=
  if op = .cmp then m.withFlags (some (.ofSub (m.word w dst) b))
  else (m.setWord w dst (op.apply (m.word w dst) b)).withFlags none

/-- Division of the data register and the accumulator together, unless it traps. -/
def execDiv (w : Width) (divisor : Gpr) (m : State) : Option State :=
  let a := (m.word w .rdx ++ m.word w .rax).toInt
  let b := (m.word w divisor).toInt
  let q := a.tdiv b
  if b = 0 ∨ q < -2 ^ (w.bits - 1) ∨ 2 ^ (w.bits - 1) ≤ q then
    none
  else
    some (((m.setWord w .rax (.ofInt _ q)).setWord w .rdx (.ofInt _ (a.tmod b))).withFlags none)

/-- A call through a register. -/
def execCall (c : Surroundings) (target : Gpr) (m : State) : State :=
  let a := m.arrival
  let m' := m.resume c (c.reply (m.gpr target) a (c.visible m.mem))
  { m' with trace := m.trace ++ [.call (m.gpr target) a] }

/-- The low byte of a register replaced. -/
def setByte (r : BitVec 64) (v : BitVec 8) : BitVec 64 :=
  (r &&& ~~~255) ||| v.setWidth 64

/-- One instruction; `none` where it traps or reads flags that are not known. Returning is left
    to `step`. -/
def exec (c : Surroundings) (m : State) : Inst → Option State
  | .mov w dst src => some (m.setWord w dst (m.word w src))
  | .movImm32 dst imm => some (m.setWord .w32 dst imm)
  | .movImm64 dst imm => some (m.setGpr dst imm)
  | .movsxd dst src => some (m.setGpr dst ((m.word .w32 src).signExtend 64))
  | .movzxByte dst src => some (m.setGpr dst (((m.gpr src).setWidth 8).setWidth 64))
  | .load width signed dst src =>
    let a := m.address src
    some ((m.observeLoad c a width.bytes).setGpr dst
      (width.extend signed (m.read a width.bytes)))
  | .store width dst src => some (m.write c (m.address dst) width.bytes (m.gpr src))
  | .lea dst src => some (m.setGpr dst (m.address src))
  | .alu op w dst src => some (execAlu op w dst (m.word w src) m)
  | .aluImm op w dst imm => some (execAlu op w dst (imm.signExtend w.bits) m)
  | .imul w dst src => some ((m.setWord w dst (m.word w dst * m.word w src)).withFlags none)
  | .imulImm w dst src imm =>
    some ((m.setWord w dst (m.word w src * imm.signExtend w.bits)).withFlags none)
  | .unary op w dst => some ((m.setWord w dst (op.apply (m.word w dst))).withFlags none)
  | .shiftCl op w dst =>
    some ((m.setWord w dst (op.apply (m.word w dst) ((m.gpr .rcx).setWidth 8))).withFlags none)
  | .shiftImm op w dst amount =>
    some ((m.setWord w dst (op.apply (m.word w dst) amount)).withFlags none)
  | .signExtend w =>
    some (m.setWord w .rdx ((m.word w .rax).sshiftRight (w.bits - 1)))
  | .idiv w divisor => execDiv w divisor m
  | .test w a b => some (m.withFlags (some (.ofAnd (m.word w a) (m.word w b))))
  | .setcc cond dst => do
    let f ← m.flags
    return m.setGpr dst (setByte (m.gpr dst) (if cond.holds f then 1 else 0))
  | .andByte dst src =>
    let v := (m.gpr dst &&& m.gpr src).setWidth 8
    some ((m.setGpr dst (setByte (m.gpr dst) v)).withFlags none)
  | .cmovne w dst src => do
    let f ← m.flags
    return m.setWord w dst (if Cond.ne.holds f then m.word w src else m.word w dst)
  | .movaps dst src => some (m.setXmm dst (m.xmm src))
  | .xorps dst src => some (m.setXmm dst (m.xmm dst ^^^ m.xmm src))
  | .loadFloat s dst src =>
    let a := m.address src
    let n := s.bits / 8
    some ((m.observeLoad c a n).setXmm dst ((m.read a n).setWidth 128))
  | .storeFloat s dst src =>
    some (m.write c (m.address dst) (s.bits / 8) ((m.lane s src).setWidth 64))
  | .floatArith op s dst src =>
    some (m.setLane s dst (c.float.arith op s (m.lane s dst) (m.lane s src)))
  | .ucomis s a b =>
    some (m.withFlags (some (.ofOrder (c.float.order s (m.lane s a) (m.lane s b)))))
  | .intToFloat s w dst src => some (m.setLane s dst (c.float.ofInt s w (m.word w src)))
  | .floatToInt w s dst src => some (m.setWord w dst (c.float.toInt w s (m.lane s src)))
  | .resize .double dst src => some (m.setLane .double dst (c.float.widen (m.lane .single src)))
  | .resize .single dst src => some (m.setLane .single dst (c.float.narrow (m.lane .double src)))
  | .movBits w dst src => some (m.setXmm dst ((m.word w src).setWidth 128))
  | .call target => some (execCall c target m)
  | .push r =>
    let sp := m.gpr .rsp - 8
    some ((m.setGpr .rsp sp).write c sp 8 (m.gpr r))
  | .pop r =>
    let sp := m.gpr .rsp
    some (((m.observeLoad c sp 8).setGpr .rsp (sp + 8)).setGpr r (m.read sp 8))
  | .nop => some m
  | .ret | .ud2 => none

/-- Code with the items that its labels stand for. -/
structure Program where
  items : Array Item
  target : Nat → Option Nat

/-- The finished code of an emitter. -/
def Emitter.program (e : Emitter) : Program :=
  ⟨e.closed, fun label => e.labels[label]?.join⟩

/-- Result of a step. -/
inductive Next where
  /-- Control goes to the item with this number. -/
  | go (pc : Nat) (m : State)
  /-- The code returned to an address. -/
  | returned (address : BitVec 64) (m : State)
  /-- A trap, a jump to nowhere or a condition on unknown flags. -/
  | fault

/-- Goes on with the item that a label stands for. -/
def Program.goto (p : Program) (m : State) (label : Nat) : Next :=
  match p.target label with
  | some pc => .go pc m
  | none => .fault

/-- The item with number `pc`. -/
def step (c : Surroundings) (p : Program) (pc : Nat) (m : State) : Next :=
  match p.items[pc]? with
  | none => .fault
  | some (.jump none label) => p.goto m label
  | some (.jump (some cond) label) =>
    match m.flags with
    | none => .fault
    | some f => if cond.holds f then p.goto m label else .go (pc + 1) m
  | some (.op .ret) =>
    let sp := m.gpr .rsp
    .returned (m.read sp 8) (m.setGpr .rsp (sp + 8))
  | some (.op i) =>
    match exec c m i with
    | some m' => .go (pc + 1) m'
    | none => .fault

/-- Any number of steps. -/
inductive Reaches (c : Surroundings) (p : Program) : Nat → State → Nat → State → Prop
  | refl (pc : Nat) (m : State) : Reaches c p pc m pc m
  | step {pc pc' pc'' : Nat} {m m' m'' : State} (h : step c p pc m = .go pc' m')
      (hrest : Reaches c p pc' m' pc'' m'') : Reaches c p pc m pc'' m''

theorem Reaches.trans {c : Surroundings} {p : Program} {pc pc' pc'' : Nat} {m m' m'' : State}
    (h : Reaches c p pc m pc' m') (h' : Reaches c p pc' m' pc'' m'') :
    Reaches c p pc m pc'' m'' := by
  induction h with
  | refl => exact h'
  | step hs _ ih => exact .step hs (ih h')

end JitBackend.Machine
