import JitBackend.Proofs.Branches
import JitBackend.Proofs.FinishedCode

namespace JitBackend.Machine

/-!
# Reading machine code

The bytes of an instruction say where it ends and which one it is, so bytes can be read back as
instructions in one way only. Prefixes and opcode are read first; they tell whether operands follow,
the operands tell where the displacement ends, and all of them together how long the constant is.

* `Coded` — an instruction in code, where jumps carry displacements;
* `decode` — reads one instruction;
* `Inst.decode_bytes`, `Coded.decode_bytes` — it reads the instruction that was written and leaves
  the bytes behind it;
* `Emitter.Read` — the instructions of finished code;
* `uniquely_decodable` — no bytes stand for two instructions, or for two sequences of them.
-/

/-- An instruction in code: a jump has a form and carries a displacement. -/
inductive Coded where
  | op (i : Inst)
  | short (cond : Option Cond) (d : BitVec 8)
  | near (cond : Option Cond) (d : BitVec 32)
  deriving DecidableEq, Repr

/-- Bytes of an instruction. -/
def Coded.bytes : Coded → List Byte
  | .op i => i.bytes
  | .short none d => [0xeb, d]
  | .short (some c) d => [(7 : BitVec 4) ++ c.code, d]
  | .near none d => 0xe9 :: littleEndian 4 d
  | .near (some c) d => 0x0f :: ((8 : BitVec 4) ++ c.code) :: littleEndian 4 d

/-- One name for one instruction: loads of 32 and of 64 bits extend nothing, signed or not. -/
def Inst.normal : Inst → Inst
  | .load .b32 _ dst src => .load .b32 false dst src
  | .load .b64 _ dst src => .load .b64 false dst src
  | i => i

@[inherit_doc Inst.normal]
def Coded.normal : Coded → Coded
  | .op i => .op i.normal
  | i => i

/-! ### Parts of instructions -/

/-- The number with these bytes, lowest first. -/
def number : List Byte → Nat
  | [] => 0
  | b :: code => b.toNat + 256 * number code

/-- Reads a number of `n` bits. -/
def readNumber {α : Type} (n : Nat) (f : BitVec n → α) (code : List Byte) : α × List Byte :=
  (f (.ofNat n (number (code.take (n / 8)))), code.drop (n / 8))

/-- Reads a byte that stands for a number of 32 bits. -/
def readByte {α : Type} (f : BitVec 32 → α) : List Byte → α × List Byte :=
  readNumber 8 fun d => f (d.signExtend 32)

/-- Whether a byte is a mandatory prefix. -/
def isMandatory (b : Byte) : Bool :=
  b == 0x66 || b == 0xf2 || b == 0xf3

/-- Whether a byte is an extension prefix. -/
def isExtension (b : Byte) : Bool :=
  b.extractLsb' 4 4 == 4

/-- Takes a byte of a kind, if there is one. -/
def takeIf (p : Byte → Bool) : List Byte → List Byte × List Byte
  | [] => ([], [])
  | b :: code => if p b then ([b], code) else ([], b :: code)

/-- Takes an opcode. -/
def takeOpcode : List Byte → List Byte × List Byte
  | b :: b' :: code => if b = 0x0f then ([b, b'], code) else ([b], b' :: code)
  | code => (code, [])

/-- What stands in front of the operands, with the highest bits of the operands. -/
structure Head where
  mandatory : List Byte
  wide : Bool
  regHigh : Bool
  rmHigh : Bool
  opcode : List Byte

/-- Reads prefixes and opcode. -/
def readHead (code : List Byte) : Head × List Byte :=
  let (mandatory, code) := takeIf isMandatory code
  let (extension, code) := takeIf isExtension code
  let (opcode, code) := takeOpcode code
  let x := extension.headD 0
  (⟨mandatory, x.getLsbD 3, x.getLsbD 2, x.getLsbD 0, opcode⟩, code)

/-- Number of a register. -/
def register (high : Bool) (low : BitVec 3) : BitVec 4 :=
  BitVec.ofBool high ++ low

/-- Reads the operands. -/
def readOperands (h : Head) : List Byte → (BitVec 4 × RegMem) × List Byte
  | [] => ((0, .reg 0), [])
  | b :: code =>
    let reg := register h.regHigh (b.extractLsb' 3 3)
    let rm := register h.rmHigh (b.extractLsb' 0 3)
    let unindexed := if b.extractLsb' 0 3 = 4 then code.drop 1 else code
    match (b.extractLsb' 6 2).toNat with
    | 0 => ((reg, .mem ⟨⟨rm⟩, 0⟩), unindexed)
    | 1 => readByte (fun d => (reg, .mem ⟨⟨rm⟩, d⟩)) unindexed
    | 2 => readNumber 32 (fun d => (reg, .mem ⟨⟨rm⟩, d⟩)) unindexed
    | _ => ((reg, .reg rm), code)

/-! ### Instructions -/

/-- Reads the end of an instruction. -/
abbrev Reads := List Byte → Coded × List Byte

/-- The instruction is at its end. -/
def done (i : Inst) : Reads := fun code => (.op i, code)

/-- The operation of an opcode, among some. -/
def find? {α β : Type} [DecidableEq β] (ops : List α) (code : α → β) (b : β) : Option α :=
  ops.find? (code · = b)

/-- Operation with these opcode bits. -/
def aluOf? : BitVec 4 → Option AluOp :=
  find? [.add, .sub, .and, .or, .xor, .cmp] AluOp.code

@[inherit_doc aluOf?]
def condOf? : BitVec 4 → Option Cond :=
  find? [.e, .ne, .l, .le, .g, .ge, .b, .be, .a, .ae, .np] Cond.code

@[inherit_doc aluOf?]
def shiftOf? : BitVec 4 → Option ShiftOp :=
  find? [.shl, .shr, .sar] shiftCode

/-- Size of operands. -/
def widthOf (wide : Bool) : Width :=
  if wide then .w64 else .w32

/-- Size of float operands. -/
def sizeOf? : List Byte → Option FloatSize :=
  find? [.single, .double] fun s => [scalarByte s]

namespace Head

/-- Instructions without operand bytes. -/
def plain? (h : Head) : Option Reads :=
  match h.opcode with
  | [op] =>
    let r : Gpr := ⟨register h.rmHigh (op.setWidth 3)⟩
    match (op.extractLsb' 3 5).toNat, op.toNat with
    | 0x0a, _ => some (done (.push r))
    | 0x0b, _ => some (done (.pop r))
    | 0x17, _ => some <|
      if h.wide then readNumber 64 fun v => .op (.movImm64 r v)
      else readNumber 32 fun v => .op (.movImm32 r v)
    | _, 0xeb => some (readNumber 8 fun d => .short none d)
    | _, 0xe9 => some (readNumber 32 fun d => .near none d)
    | _, 0x99 => some (done (.signExtend (widthOf h.wide)))
    | _, 0xc3 => some (done .ret)
    | _, 0x90 => some (done .nop)
    | _, _ =>
      if op.extractLsb' 4 4 = 7 then
        (condOf? (op.setWidth 4)).map fun c => readNumber 8 fun d => .short (some c) d
      else if op.extractLsb' 0 3 = 5 ∧ op.extractLsb' 6 2 = 0 then
        (aluOf? ((op.extractLsb' 3 3).setWidth 4)).map fun o =>
          readNumber 32 fun v => .op (.aluImm o (widthOf h.wide) .rax v)
      else none
  | [_, op] =>
    if op = 0x0b then some (done .ud2)
    else if op.extractLsb' 4 4 = 8 then
      (condOf? (op.setWidth 4)).map fun c => readNumber 32 fun d => .near (some c) d
    else none
  | _ => none

/-- Instructions with operand bytes. -/
def reads? (h : Head) (reg : BitVec 4) (rm : RegMem) : Option Reads :=
  let w := widthOf h.wide
  match h.opcode.map BitVec.toNat, rm with
  | [0x20], .reg dst => some (done (.andByte ⟨dst⟩ ⟨reg⟩))
  | [0x63], .reg src => some (done (.movsxd ⟨reg⟩ ⟨src⟩))
  | [0x69], .reg src => some (readNumber 32 fun v => .op (.imulImm w ⟨reg⟩ ⟨src⟩ v))
  | [0x6b], .reg src => some (readByte fun v => .op (.imulImm w ⟨reg⟩ ⟨src⟩ v))
  | [0x81], .reg dst =>
    (aluOf? reg).map fun o => readNumber 32 fun v => .op (.aluImm o w ⟨dst⟩ v)
  | [0x83], .reg dst => (aluOf? reg).map fun o => readByte fun v => .op (.aluImm o w ⟨dst⟩ v)
  | [0x85], .reg a => some (done (.test w ⟨a⟩ ⟨reg⟩))
  | [0x88], .mem dst => some (done (.store .b8 dst ⟨reg⟩))
  | [0x89], .reg dst => some (done (.mov w ⟨dst⟩ ⟨reg⟩))
  | [0x89], .mem dst =>
    let width := if h.mandatory = [0x66] then .b16 else if h.wide then .b64 else .b32
    some (done (.store width dst ⟨reg⟩))
  | [0x8b], .mem src => some (done (.load (if h.wide then .b64 else .b32) false ⟨reg⟩ src))
  | [0x8d], .mem src => some (done (.lea ⟨reg⟩ src))
  | [0xc1], .reg dst =>
    (shiftOf? reg).map fun o => readNumber 8 fun n => .op (.shiftImm o w ⟨dst⟩ (n.setWidth 6))
  | [0xd1], .reg dst => (shiftOf? reg).map fun o => done (.shiftImm o w ⟨dst⟩ 1)
  | [0xd3], .reg dst => (shiftOf? reg).map fun o => done (.shiftCl o w ⟨dst⟩)
  | [0xf7], .reg dst =>
    if reg = 7 then some (done (.idiv w ⟨dst⟩))
    else (find? [.not, .neg] unaryCode reg).map fun o => done (.unary o w ⟨dst⟩)
  | [0xff], .reg target => some (done (.call ⟨target⟩))
  | [0x0f, 0x10], .mem src => (sizeOf? h.mandatory).map fun s => done (.loadFloat s ⟨reg⟩ src)
  | [0x0f, 0x11], .mem dst => (sizeOf? h.mandatory).map fun s => done (.storeFloat s dst ⟨reg⟩)
  | [0x0f, 0x28], .reg src => some (done (.movaps ⟨reg⟩ ⟨src⟩))
  | [0x0f, 0x2a], .reg src =>
    (sizeOf? h.mandatory).map fun s => done (.intToFloat s w ⟨reg⟩ ⟨src⟩)
  | [0x0f, 0x2c], .reg src =>
    (sizeOf? h.mandatory).map fun s => done (.floatToInt w s ⟨reg⟩ ⟨src⟩)
  | [0x0f, 0x2e], .reg b =>
    (find? [.single, .double] compareByte h.mandatory).map fun s => done (.ucomis s ⟨reg⟩ ⟨b⟩)
  | [0x0f, 0x45], .reg src => some (done (.cmovne w ⟨reg⟩ ⟨src⟩))
  | [0x0f, 0x57], .reg src => some (done (.xorps ⟨reg⟩ ⟨src⟩))
  | [0x0f, 0x5a], .reg src =>
    some (done (.resize (if h.mandatory = [0xf3] then .double else .single) ⟨reg⟩ ⟨src⟩))
  | [0x0f, 0x6e], .reg src => some (done (.movBits w ⟨reg⟩ ⟨src⟩))
  | [0x0f, 0xaf], .reg src => some (done (.imul w ⟨reg⟩ ⟨src⟩))
  | [0x0f, 0xb6], .reg src => some (done (.movzxByte ⟨reg⟩ ⟨src⟩))
  | [0x0f, 0xb6], .mem src => some (done (.load .b8 false ⟨reg⟩ src))
  | [0x0f, 0xb7], .mem src => some (done (.load .b16 false ⟨reg⟩ src))
  | [0x0f, 0xbe], .mem src => some (done (.load .b8 true ⟨reg⟩ src))
  | [0x0f, 0xbf], .mem src => some (done (.load .b16 true ⟨reg⟩ src))
  | [0x0f, op], .reg r =>
    match find? [.add, .sub, .mul, .div] floatOpcode (.ofNat 8 op) with
    | some o => (sizeOf? h.mandatory).map fun s => done (.floatArith o s ⟨reg⟩ ⟨r⟩)
    | none => (condOf? (.ofNat 4 op)).map fun c => done (.setcc c ⟨r⟩)
  | [op], .reg dst => (aluOf? (.ofNat 4 (op / 8))).map fun o => done (.alu o w ⟨dst⟩ ⟨reg⟩)
  | _, _ => none

end Head

/-- Reads one instruction. -/
def decode (code : List Byte) : Option (Coded × List Byte) :=
  let (h, code) := readHead code
  match h.plain? with
  | some read => some (read code)
  | none =>
    let ((reg, rm), code) := readOperands h code
    (h.reads? reg rm).map (· code)

/-! ### Reading what was written -/

theorem number_littleEndian {m : Nat} (count : Nat) (v : BitVec m) :
    number (littleEndian count v) = v.toNat % 2 ^ (8 * count) := by
  induction count generalizing v with
  | zero => simp [littleEndian, number, Nat.mod_one]
  | succ count ih =>
    have hcons : littleEndian (count + 1) v = v.setWidth 8 :: littleEndian count (v >>> 8) := by
      simp [littleEndian, List.range_succ_eq_map, BitVec.shiftRight_add, Nat.mul_add, Nat.add_comm]
    rw [hcons, number, ih, BitVec.toNat_setWidth, BitVec.toNat_ushiftRight,
      Nat.shiftRight_eq_div_pow, Nat.mul_add, Nat.add_comm (8 * count), Nat.pow_add, Nat.mod_mul]

theorem readNumber_littleEndian {α : Type} {m n : Nat} (hn : 8 * (n / 8) = n) (f : BitVec n → α)
    (v : BitVec m) (rest : List Byte) :
    readNumber n f (littleEndian (n / 8) v ++ rest) = (f (v.setWidth n), rest) := by
  have hlen : (littleEndian (n / 8) v).length = n / 8 := by simp [littleEndian]
  rw [readNumber, List.take_left' hlen, List.drop_left' hlen, number_littleEndian, hn]
  congr 2
  exact BitVec.eq_of_toNat_eq (by simp)

theorem readByte_littleEndian {α : Type} (f : BitVec 32 → α) {v : BitVec 32}
    (hv : fitsByte v = true) (rest : List Byte) :
    readByte f (littleEndian 1 v ++ rest) = (f v, rest) := by
  refine (readNumber_littleEndian (n := 8) rfl _ v rest).trans ?_
  rw [beq_iff_eq.mp hv]

variable {code : List Byte} {h : Head}

theorem takeIf_append {p : Byte → Bool} {xs : List Byte} (hlen : xs.length ≤ 1)
    (hxs : xs.all p = true) (hcode : code.head?.all (!p ·) = true) :
    takeIf p (xs ++ code) = (xs, code) := by
  cases xs with
  | nil =>
    cases code with
    | nil => rfl
    | cons b code => simp_all [takeIf]
  | cons b xs =>
    obtain rfl : xs = [] := by simpa using hlen
    simp_all [takeIf]

theorem extension_spec (wide : Bool) (reg rm : BitVec 4) (force : Bool) :
    let xs := Form.extension wide reg rm force
    let x := xs.headD 0
    (xs.length ≤ 1 ∧ xs.all isExtension = true ∧ xs.all (!isMandatory ·) = true) ∧
      x.getLsbD 3 = wide ∧ x.getLsbD 2 = reg.getLsbD 3 ∧ x.getLsbD 0 = rm.getLsbD 3 := by
  revert wide reg rm force
  decide +kernel

/-- Prefixes and opcode cannot be taken for each other. -/
def Head.isClear (h : Head) : Bool :=
  (h.mandatory.length ≤ 1 && h.mandatory.all isMandatory) &&
    match h.opcode with
    | [b] => !isMandatory b && !isExtension b && b != 0x0f
    | [b, _] => b == 0x0f
    | _ => false

theorem takeOpcode_append (hclear : h.isClear = true) (code : List Byte) :
    takeOpcode (h.opcode ++ code) = (h.opcode, code) ∧
      (h.opcode ++ code).head?.all (!isExtension ·) = true ∧
      (h.opcode ++ code).head?.all (!isMandatory ·) = true := by
  obtain ⟨m, wide, regHigh, rmHigh, opcode⟩ := h
  simp only [Head.isClear, Bool.and_eq_true] at hclear
  replace hclear := hclear.2
  split at hclear
  · next b =>
    simp only [Bool.and_eq_true, bne_iff_ne, ne_eq] at hclear
    cases code <;> simp_all [takeOpcode]
  · next b b' =>
    cases beq_iff_eq.mp hclear
    exact ⟨rfl, rfl, rfl⟩
  · cases hclear

/-- Prefixes and opcode are read back. -/
theorem readHead_append (hclear : h.isClear = true) (reg rm : BitVec 4)
    (hreg : h.regHigh = reg.getLsbD 3) (hrm : h.rmHigh = rm.getLsbD 3) (force : Bool)
    (code : List Byte) :
    readHead (h.mandatory ++ (Form.extension h.wide reg rm force ++ (h.opcode ++ code)))
      = (h, code) := by
  obtain ⟨⟨hxlen, hx, hxm⟩, hwide, hbits⟩ := extension_spec h.wide reg rm force
  obtain ⟨hopcode, hopx, hopm⟩ := takeOpcode_append hclear code
  have hfirst : (Form.extension h.wide reg rm force ++ (h.opcode ++ code)).head?.all
      (!isMandatory ·) = true := by
    generalize Form.extension h.wide reg rm force = xs at hxm
    cases xs with
    | nil => exact hopm
    | cons x xs => simp_all
  simp only [Head.isClear, Bool.and_eq_true, decide_eq_true_eq] at hclear
  rw [readHead, takeIf_append hclear.1.1 hclear.1.2 hfirst]
  simp only [takeIf_append hxlen hx hopx, hopcode, hwide, hbits.1, hbits.2, ← hreg, ← hrm]

theorem register_eq (c : BitVec 4) : register (c.getLsbD 3) (c.setWidth 3) = c := by
  revert c
  decide

theorem operandByte_fields (mode : BitVec 2) (reg rm : BitVec 4) :
    let b := Form.operandByte mode reg rm
    b.extractLsb' 6 2 = mode ∧ b.extractLsb' 3 3 = reg.setWidth 3 ∧
      b.extractLsb' 0 3 = rm.setWidth 3 := by
  revert mode reg rm
  decide +kernel

/-- Operands are read back. -/
theorem readOperands_append {reg : BitVec 4} {rm : RegMem} (hreg : h.regHigh = reg.getLsbD 3)
    (hrm : h.rmHigh = (Form.rmCode rm).getLsbD 3) (code : List Byte) :
    readOperands h (Form.operandBytes reg rm ++ code) = ((reg, rm), code) := by
  cases rm with
  | reg c =>
    obtain ⟨hmode, hr, hm⟩ := operandByte_fields 3 reg c
    simp only [Form.rmCode] at hrm
    simp only [Form.operandBytes, List.cons_append, List.nil_append, readOperands, hmode, hr, hm,
      hreg, hrm, register_eq]
    rfl
  | mem m =>
    obtain ⟨⟨base⟩, disp⟩ := m
    simp only [Form.rmCode] at hrm
    -- an index byte is written and skipped for the same bases
    have hindex : ∀ tail : List Byte, (if base.setWidth 3 = (4 : BitVec 3) then
        ((if base.setWidth 3 = (4 : BitVec 3) then [(0x24 : Byte)] else []) ++ tail).drop 1
        else (if base.setWidth 3 = (4 : BitVec 3) then [(0x24 : Byte)] else []) ++ tail) = tail := by
      intro tail
      split <;> rfl
    have hfields := fun mode => operandByte_fields mode reg base
    simp only [Form.operandBytes]
    split
    case isTrue hzero =>
      simp only [List.cons_append, readOperands, hfields, hreg, hrm, register_eq, hindex]
      simp_all
    case isFalse =>
      split
      case isTrue hfits =>
        simp only [List.cons_append, List.append_assoc, readOperands, hfields, hreg, hrm,
          register_eq, hindex]
        exact readByte_littleEndian _ hfits code
      case isFalse =>
        simp only [List.cons_append, List.append_assoc, readOperands, hfields, hreg, hrm,
          register_eq, hindex]
        refine (readNumber_littleEndian (n := 32) rfl _ disp code).trans ?_
        rw [BitVec.setWidth_eq]

/-- What stands in front of the operands of a pattern. -/
def Form.head (f : Form) : Head :=
  ⟨f.mandatory, f.wide, f.reg.getLsbD 3, (rmCode f.rm).getLsbD 3, f.opcode⟩

/-- A pattern is read up to its constant, and then the constant. -/
theorem decode_form {f : Form} {read : Reads} {rest : List Byte} {r : Coded × List Byte}
    (hclear : f.head.isClear = true) (hplain : f.head.plain? = none)
    (hread : f.head.reads? f.reg f.rm = some read) (himm : read (f.imm ++ rest) = r) :
    decode (f.bytes ++ rest) = some r := by
  have hhead := readHead_append hclear f.reg (Form.rmCode f.rm) rfl rfl
    (f.byteRegs.any Form.needsExtension) (Form.operandBytes f.reg f.rm ++ (f.imm ++ rest))
  simp only [Form.head] at hhead hplain hread
  simp only [Form.bytes, List.append_assoc, decode, hhead, hplain]
  rw [readOperands_append rfl rfl]
  simp only [hread, Option.map_some, himm]

/-- An instruction without operand bytes is read up to its constant, and then the constant. -/
theorem decode_plain (wide : Bool) (rm : BitVec 4) (opcode : List Byte) {read : Reads}
    {r : Coded × List Byte} (hclear : Head.isClear ⟨[], wide, false, rm.getLsbD 3, opcode⟩ = true)
    (hread : Head.plain? ⟨[], wide, false, rm.getLsbD 3, opcode⟩ = some read) (himm : read code = r)
    : decode (Form.extension wide 0 rm false ++ (opcode ++ code)) = some r := by
  have hhead := readHead_append hclear 0 rm rfl rfl false code
  simp only [List.nil_append] at hhead
  simp only [decode, hhead, hread, himm]

theorem shortOpcode_fields (o : BitVec 5) (c : BitVec 3) :
    (o ++ c).extractLsb' 3 5 = o ∧ (o ++ c).setWidth 3 = c := by
  revert o c
  decide

/-- An opcode that holds a register is read up to its constant, and then the constant. -/
theorem decode_shortForm {wide : Bool} {o : BitVec 5} {r : Gpr} (read : Gpr → Reads)
    {res : Coded × List Byte}
    (hclear : ∀ (high : Bool) (c : BitVec 3), Head.isClear ⟨[], wide, false, high, [o ++ c]⟩ = true)
    (hread : ∀ (high : Bool) (op : Byte), op.extractLsb' 3 5 = o →
      Head.plain? ⟨[], wide, false, high, [op]⟩
        = some (read ⟨register high (op.setWidth 3)⟩)) (himm : read r code = res) :
    decode (shortForm wide o r ++ code) = some res := by
  obtain ⟨hop, hlow⟩ := shortOpcode_fields o (r.code.setWidth 3)
  have hplain := hread (r.code.getLsbD 3) _ hop
  rw [hlow, register_eq] at hplain
  rw [shortForm, List.append_assoc]
  exact decode_plain _ _ _ (hclear _ _) hplain himm

theorem widthOf_isWide (w : Width) : widthOf w.isWide = w := by
  cases w <;> rfl

/-- An instruction is read back, whatever follows it. -/
theorem Inst.decode_bytes (i : Inst) (rest : List Byte) :
    decode (i.bytes ++ rest) = some (.op i.normal, rest) := by
  cases i with
  | movsxd | movzxByte | lea | andByte | movaps | xorps | call =>
    exact decode_form rfl rfl rfl rfl
  | mov w | imul w | idiv w | test w | cmovne w | movBits w =>
    cases w <;> exact decode_form rfl rfl rfl rfl
  | loadFloat s | storeFloat s | ucomis s | resize s =>
    cases s <;> exact decode_form rfl rfl rfl rfl
  | intToFloat s w | floatToInt w s => cases w <;> cases s <;> exact decode_form rfl rfl rfl rfl
  | unary op w | shiftCl op w | alu op w =>
    cases op <;> cases w <;> exact decode_form rfl rfl rfl rfl
  | floatArith op s => cases op <;> cases s <;> exact decode_form rfl rfl rfl rfl
  | setcc cond => cases cond <;> exact decode_form rfl rfl rfl rfl
  | load width signed => cases width <;> cases signed <;> exact decode_form rfl rfl rfl rfl
  | store width => cases width <;> exact decode_form rfl rfl rfl rfl
  | aluImm op w dst imm =>
    rw [Inst.bytes, aluImmBytes]
    split
    case isTrue h =>
      subst h
      rw [List.append_assoc, List.append_assoc]
      refine decode_plain _ _ _ ?_ ?_
        (readNumber_littleEndian (n := 32) rfl (fun v => Coded.op (.aluImm op w .rax v)) imm rest)
      · cases op <;> rfl
      · simp only [Head.plain?, widthOf_isWide]
        cases op <;> rfl
    case isFalse =>
      split
      case isTrue hfits =>
        cases op <;> cases w <;>
          exact decode_form rfl rfl rfl (readByte_littleEndian _ hfits rest)
      case isFalse =>
        cases op <;> cases w <;>
          exact decode_form rfl rfl rfl (readNumber_littleEndian (n := 32) rfl _ imm rest)
  | imulImm w dst src imm =>
    rw [Inst.bytes, imulImmBytes]
    split
    case isTrue hfits =>
      cases w <;> exact decode_form rfl rfl rfl (readByte_littleEndian _ hfits rest)
    case isFalse =>
      cases w <;> exact decode_form rfl rfl rfl (readNumber_littleEndian (n := 32) rfl _ imm rest)
  | shiftImm op w dst amount =>
    rw [Inst.bytes, shiftImmBytes]
    split
    case isTrue h =>
      subst h
      cases op <;> cases w <;> exact decode_form rfl rfl rfl rfl
    case isFalse =>
      have hamount : (amount.setWidth 8).setWidth 6 = amount := by
        revert amount
        decide
      have hread : readNumber 8 (fun n => Coded.op (.shiftImm op w dst (n.setWidth 6)))
          ([amount.setWidth 8] ++ rest) = (.op (.shiftImm op w dst amount), rest) := by
        refine (readNumber_littleEndian (n := 8) rfl _ (amount.setWidth 8) rest).trans ?_
        rw [BitVec.setWidth_eq, hamount]
      cases op <;> cases w <;> exact decode_form rfl rfl rfl hread
  | push r =>
    refine decode_shortForm (fun r => done (.push r)) (by decide) (fun high op h => ?_) rfl
    simp only [Head.plain?, h]
    rfl
  | pop r =>
    refine decode_shortForm (fun r => done (.pop r)) (by decide) (fun high op h => ?_) rfl
    simp only [Head.plain?, h]
    rfl
  | movImm32 r imm =>
    rw [Inst.bytes, List.append_assoc]
    refine decode_shortForm (fun r => readNumber 32 fun v => .op (.movImm32 r v))
      (by decide) (fun high op h => ?_) (readNumber_littleEndian (n := 32) rfl _ imm rest)
    simp only [Head.plain?, h]
    rfl
  | movImm64 r imm =>
    rw [Inst.bytes, List.append_assoc]
    refine decode_shortForm (fun r => readNumber 64 fun v => .op (.movImm64 r v))
      (by decide) (fun high op h => ?_) (readNumber_littleEndian (n := 64) rfl _ imm rest)
    simp only [Head.plain?, h]
    rfl
  | signExtend w =>
    rw [Inst.bytes, List.append_assoc]
    cases w <;> exact decode_plain _ _ _ rfl rfl rfl
  | ret => exact decode_plain false 0 [0xc3] rfl rfl rfl
  | nop => exact decode_plain false 0 [0x90] rfl rfl rfl
  | ud2 => exact decode_plain false 0 [0x0f, 0x0b] rfl rfl rfl

/-- So is a jump. -/
theorem Coded.decode_bytes (i : Coded) (rest : List Byte) :
    decode (i.bytes ++ rest) = some (i.normal, rest) := by
  have hshort : ∀ (d : BitVec 8) (f : BitVec 8 → Coded),
      readNumber 8 f ([d] ++ rest) = (f d, rest) := by
    intro d f
    refine (readNumber_littleEndian (n := 8) rfl f d rest).trans ?_
    rw [BitVec.setWidth_eq]
  have hnear : ∀ (d : BitVec 32) (f : BitVec 32 → Coded),
      readNumber 32 f (littleEndian 4 d ++ rest) = (f d, rest) := by
    intro d f
    refine (readNumber_littleEndian (n := 32) rfl f d rest).trans ?_
    rw [BitVec.setWidth_eq]
  cases i with
  | op i => exact i.decode_bytes rest
  | short cond d =>
    cases cond with
    | none => exact decode_plain false 0 [0xeb] rfl rfl (hshort d _)
    | some c =>
      cases c <;> exact decode_plain false 0 [(7 : BitVec 4) ++ _] rfl rfl (hshort d _)
  | near cond d =>
    cases cond with
    | none => exact decode_plain false 0 [0xe9] rfl rfl (hnear d _)
    | some c =>
      cases c <;> exact decode_plain false 0 [0x0f, (8 : BitVec 4) ++ _] rfl rfl (hnear d _)

/-! ### Code -/

/-- An instruction in code is this item: a jump has either form and any displacement. -/
inductive Coded.Of : Item → Coded → Prop where
  | op (i : Inst) : Of (.op i) (.op i)
  | short (cond : Option Cond) (l : Nat) (d : BitVec 8) : Of (.jump cond l) (.short cond d)
  | near (cond : Option Cond) (l : Nat) (d : BitVec 32) : Of (.jump cond l) (.near cond d)

/-- The instructions of finished code, item by item. -/
structure Emitter.Read (e : Emitter) (code : Code) (is : List Coded) : Prop where
  items : List.Forall₂ Coded.Of e.closed.toList is
  bytes : code.bytes = is.flatMap Coded.bytes

theorem littleEndian_append (a b c d : Byte) :
    littleEndian 4 (d ++ c ++ b ++ a) = [a, b, c, d] := by
  show [_, _, _, _] = _
  simp only [List.cons.injEq, and_true]
  refine ⟨?_, ?_, ?_, ?_⟩ <;> refine BitVec.eq_of_getLsbD_eq fun i hi => ?_
  all_goals
    simp only [BitVec.getLsbD_append, BitVec.getLsbD_setWidth, BitVec.getLsbD_ushiftRight]
    grind

theorem IsJump.exists_coded {cond : Option Cond} {d : Int} {piece : List Byte} (l : Nat)
    (h : IsJump cond d piece) : ∃ i, Coded.Of (.jump cond l) i ∧ i.bytes = piece := by
  cases h with
  | short d => exact ⟨.short none d, .short none l d, rfl⟩
  | shortIf cond d => exact ⟨.short (some cond) d, .short _ l d, rfl⟩
  | near a b c d =>
    refine ⟨.near none (d ++ c ++ b ++ a), .near none l _, ?_⟩
    rw [Coded.bytes, littleEndian_append]
  | nearIf cond a b c d =>
    refine ⟨.near (some cond) (d ++ c ++ b ++ a), .near _ l _, ?_⟩
    rw [Coded.bytes, littleEndian_append]

/-- All finished code is made of instructions. -/
theorem Emitter.exists_read [BlockEncoder] [BlockEncoder.Lawful] {e : Emitter} {code : Code}
    (h : e.assemble = .ok code) : ∃ is, e.Read code is := by
  obtain ⟨pieces, ha⟩ := exists_assembled h
  have hpiece : ∀ k (hk : k < e.closed.toList.length) (hk' : k < pieces.length),
      ∃ i, Coded.Of e.closed.toList[k] i ∧ i.bytes = pieces[k] := by
    intro k hk hk'
    have hitem := List.getElem?_eq_getElem hk
    cases hi : e.closed.toList[k] with
    | op i =>
      have hp := ha.op k i (hitem.trans (congrArg some hi))
      exact ⟨.op i, .op i, (List.getElem?_eq_some_iff.mp hp).2.symm⟩
    | jump cond l =>
      obtain ⟨piece, d, hp, hjump, -⟩ := ha.jump k cond l (hitem.trans (congrArg some hi))
      obtain ⟨i, hof, hbytes⟩ := hjump.exists_coded l
      exact ⟨i, hof, hbytes.trans (List.getElem?_eq_some_iff.mp hp).2.symm⟩
  have hread : List.Forall₂ (fun item piece => ∃ i, Coded.Of item i ∧ i.bytes = piece)
      e.closed.toList pieces :=
    List.forall₂_iff_get.mpr ⟨ha.length.symm, hpiece⟩
  suffices hsplit : ∃ is, List.Forall₂ Coded.Of e.closed.toList is ∧ pieces = is.map Coded.bytes by
    obtain ⟨is, hof, rfl⟩ := hsplit
    exact ⟨is, hof, ha.bytes.trans (List.flatMap_def ..).symm⟩
  clear ha hpiece
  generalize e.closed.toList = items at hread
  induction hread with
  | nil => exact ⟨[], .nil, rfl⟩
  | cons hhead _ ih =>
    obtain ⟨i, hof, rfl⟩ := hhead
    obtain ⟨is, hofs, rfl⟩ := ih
    exact ⟨i :: is, .cons hof hofs, rfl⟩

theorem Coded.bytes_normal (i : Coded) : i.normal.bytes = i.bytes := by
  cases i with
  | op i =>
    cases i with
    | load width => cases width <;> rfl
    | _ => rfl
  | _ => rfl

theorem Coded.bytes_ne_nil (i : Coded) : i.bytes ≠ [] := by
  intro hnil
  have hread := i.decode_bytes []
  rw [hnil] at hread
  cases hread

theorem Coded.append_inj {i j : Coded} {xs ys : List Byte} (h : i.bytes ++ xs = j.bytes ++ ys) :
    i.normal = j.normal ∧ xs = ys := by
  have hread := i.decode_bytes xs
  rw [h, j.decode_bytes ys, Option.some_inj, Prod.mk_inj] at hread
  exact ⟨hread.1.symm, hread.2.symm⟩

/-- Code is read in one way only. -/
theorem Coded.flatMap_bytes_inj {is js : List Coded}
    (h : is.flatMap Coded.bytes = js.flatMap Coded.bytes) :
    is.map Coded.normal = js.map Coded.normal := by
  induction is generalizing js with
  | nil =>
    cases js with
    | nil => rfl
    | cons j js =>
      rw [List.flatMap_nil, List.flatMap_cons] at h
      exact absurd (List.append_eq_nil_iff.mp h.symm).1 j.bytes_ne_nil
  | cons i is ih =>
    cases js with
    | nil =>
      rw [List.flatMap_nil, List.flatMap_cons] at h
      exact absurd (List.append_eq_nil_iff.mp h).1 i.bytes_ne_nil
    | cons j js =>
      rw [List.flatMap_cons, List.flatMap_cons] at h
      obtain ⟨hhead, htail⟩ := append_inj h
      rw [List.map_cons, List.map_cons, hhead, ih htail]

theorem Coded.flatMap_bytes_normal (is : List Coded) :
    (is.map Coded.normal).flatMap Coded.bytes = is.flatMap Coded.bytes := by
  simp only [List.flatMap_map, bytes_normal]

theorem Coded.flatMap_bytes_eq_iff (is js : List Coded) :
    is.flatMap Coded.bytes = js.flatMap Coded.bytes
      ↔ is.map Coded.normal = js.map Coded.normal := by
  refine ⟨flatMap_bytes_inj, fun h => ?_⟩
  rw [← flatMap_bytes_normal is, h, flatMap_bytes_normal]

/-- Bytes say which instructions they are. No instruction begins like another one, no two
    sequences have the same bytes, and finished code is a sequence of instructions, one for each
    item, so that code with the same bytes is the same instructions with the same displacements.
    What `normal` forgets makes no difference to the machine. -/
theorem uniquely_decodable [BlockEncoder] [BlockEncoder.Lawful] :
    (∀ i j : Coded, i.bytes <+: j.bytes ↔ i.normal = j.normal) ∧
      (∀ is js : List Coded, is.flatMap Coded.bytes = js.flatMap Coded.bytes
        ↔ is.map Coded.normal = js.map Coded.normal) ∧
      (∀ (e e' : Emitter) (code code' : Code), e.assemble = .ok code → e'.assemble = .ok code' →
        ∃ is js, e.Read code is ∧ e'.Read code' js ∧
          (code.bytes = code'.bytes ↔ is.map Coded.normal = js.map Coded.normal)) ∧
      ∀ (c : Surroundings) (m : State) (i : Inst), exec c m i.normal = exec c m i := by
  refine ⟨fun i j => ⟨?_, fun h => ?_⟩, Coded.flatMap_bytes_eq_iff, fun e e' code code' h h' => ?_,
    fun c m i => ?_⟩
  · rintro ⟨rest, hrest⟩
    rw [← List.append_nil j.bytes] at hrest
    exact (Coded.append_inj hrest).1
  · have hbytes : i.bytes = j.bytes := by rw [← i.bytes_normal, h, j.bytes_normal]
    exact hbytes ▸ List.prefix_rfl
  · obtain ⟨is, his⟩ := Emitter.exists_read h
    obtain ⟨js, hjs⟩ := Emitter.exists_read h'
    refine ⟨is, js, his, hjs, ?_⟩
    rw [his.bytes, hjs.bytes, Coded.flatMap_bytes_eq_iff]
  · cases i with
    | load width => cases width <;> rfl
    | _ => rfl

section

attribute [local instance] shrinking shrinking_lawful

/-- A jump to its own end with a condition and one without. -/
theorem uniquely_decodable_jumps :
    ∃ is js, Emitter.Read ((Emitter.empty.withLabel.withJump none 0).withBound 0)
        ⟨[0xeb, 0x00, 0x90], [some 2]⟩ is ∧
      Emitter.Read ((Emitter.empty.withLabel.withJump (some .e) 0).withBound 0)
        ⟨[0x74, 0x00, 0x90], [some 2]⟩ js ∧ is.map Coded.normal ≠ js.map Coded.normal := by
  obtain ⟨is, js, his, hjs, hiff⟩ := uniquely_decodable.2.2.1
    ((Emitter.empty.withLabel.withJump none 0).withBound 0)
    ((Emitter.empty.withLabel.withJump (some .e) 0).withBound 0)
    ⟨[0xeb, 0x00, 0x90], [some 2]⟩ ⟨[0x74, 0x00, 0x90], [some 2]⟩
    (by decide +kernel) (by decide +kernel)
  exact ⟨is, js, his, hjs, mt hiff.mpr (by decide)⟩

end

end JitBackend.Machine
