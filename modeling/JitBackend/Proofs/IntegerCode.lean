import JitBackend.Proofs.Meaning
import JitBackend.Proofs.Operands

namespace JitBackend

/-!
# Code for integer operations

The sequences that compute an integer operation on registers, each with the registers that it may
be used with. The second operand is a constant in the code or a register, and a count of a shift
goes to its register first. From any state of the machine a sequence comes to what folding comes
to: a trap where there is no value, and the value in the low bits of the destination otherwise.

* `Gen.Selects` — the sequences of an operation of two operands, `Gen.unaryInsts` — of one;
* `Machine.ComesTo` — how running code ends;
* `Gen.Selects.comesTo` — code and folding agree, for either form of the second operand.
-/

variable {v : Const}

namespace Machine

variable {c : Surroundings} {m m' : State} {rd ra rb : Reg} {w : Width} {is : List Inst}
  {o : Option Const}

/-- Running the code ends in a trap, or with a value in a register. -/
def ComesTo (c : Surroundings) (m : State) (is : List Inst) (rd : Reg) : Option Const → Prop
  | none => execAll c m is = none
  | some v => ∃ m', execAll c m is = some m' ∧ m'.Holds rd v

/-- Running the code does not trap and leaves a value in a register. -/
def Produces (c : Surroundings) (m : State) (is : List Inst) (rd : Reg) (v : Const) : Prop :=
  ∃ m', execAll c m is = some m' ∧ m'.Holds rd v

/-- Running the code traps, or it leaves a value in a register and changes the listed ones. -/
def Settles (c : Surroundings) (m : State) (is : List Inst) (rs : List Reg) (rd : Reg) :
    Option Const → Prop
  | none => execAll c m is = none
  | some v => ∃ m', execAll c m is = some m' ∧ State.SameBut rs m m' ∧ m'.Holds rd v

theorem Settles.comesTo {rs : List Reg} (h : Settles c m is rs rd o) : ComesTo c m is rd o := by
  cases o with
  | none => exact h
  | some v =>
    obtain ⟨m', hm', -, hv⟩ := h
    exact ⟨m', hm', hv⟩

/-- A register holds one value of each type. -/
theorem State.Holds.unique {u : Const} (hu : m.Holds rd u) (hv : m.Holds rd v) (ht : u.ty = v.ty) :
    u = v := by
  cases u <;> cases v <;> cases ht <;> exact congrArg _ (hu.symm.trans hv)

/-- Code that comes to an outcome computes a value of the right type exactly if that is the
    outcome. -/
theorem ComesTo.eq_some_iff (h : ComesTo c m is rd o) (ht : ∀ u, o = some u → u.ty = v.ty) :
    o = some v ↔ Produces c m is rd v := by
  constructor
  · rintro rfl
    exact h
  · rintro ⟨m', hm', hv⟩
    cases o with
    | none => rw [show execAll c m is = none from h] at hm'; cases hm'
    | some u =>
      obtain ⟨m'', hm'', hu⟩ := h
      cases hm'.symm.trans hm''
      rw [hu.unique hv (ht u rfl)]

/-- Stores leave registers alone. -/
theorem exec_stores (h : ∀ i ∈ is, i.isStore = true) :
    ∃ m', execAll c m is = some m' ∧ m'.gpr = m.gpr := by
  have hwrite : ∀ (m : State) (a : BitVec 64) (n : Nat) (v : BitVec 64),
      (m.write c a n v).gpr = m.gpr := by
    intro m a n v
    unfold State.write State.observe
    split <;> rfl
  induction is generalizing m with
  | nil => exact ⟨m, rfl, rfl⟩
  | cons i is ih =>
    obtain ⟨m1, h1, hgpr1⟩ : ∃ m1, exec c m i = some m1 ∧ m1.gpr = m.gpr := by
      cases i with
      | store width dst src => exact ⟨_, rfl, hwrite m _ _ _⟩
      | storeFloat s dst src => exact ⟨_, rfl, hwrite m _ _ _⟩
      | _ => cases h _ List.mem_cons_self
    obtain ⟨m2, h2, hgpr2⟩ := ih (m := m1) fun j hj => h j (List.mem_cons_of_mem _ hj)
    exact ⟨m2, by rw [execAll_cons h1, h2], hgpr2.trans hgpr1⟩

/-- Stores in front do not change what code comes to. -/
theorem ComesTo.after_stores {spill : List Inst} (hspill : ∀ i ∈ spill, i.isStore = true)
    (h : ∀ m' : State, m'.gpr = m.gpr → ComesTo c m' is rd o) : ComesTo c m (spill ++ is) rd o := by
  obtain ⟨m1, h1, hgpr⟩ := exec_stores (c := c) (m := m) hspill
  have hrun : execAll c m (spill ++ is) = execAll c m1 is := by
    rw [execAll_append, h1, Option.bind_some]
  cases o with
  | none => exact hrun.trans (h m1 hgpr)
  | some v =>
    obtain ⟨m', hm', hv⟩ := h m1 hgpr
    exact ⟨m', hrun.trans hm', hv⟩

/-- An instruction in front that does not trap. -/
theorem ComesTo.cons {i : Inst} (hi : exec c m i = some m') (h : ComesTo c m' is rd o) :
    ComesTo c m (i :: is) rd o := by
  cases o with
  | none => exact (execAll_cons hi).trans h
  | some v =>
    obtain ⟨m'', hm'', hv⟩ := h
    exact ⟨m'', (execAll_cons hi).trans hm'', hv⟩

theorem State.word_congr (h : m'.gpr = m.gpr) (w : Width) (r : Gpr) : m'.word w r = m.word w r := by
  rw [State.word, State.word, h]

/-- An integer is in place in states with the same general registers. -/
theorem State.Holds.of_gpr {a : Const} {x : BitVec 64} (h : m.Holds rd a) (hx : a.int? = some x)
    (hgpr : m'.gpr = m.gpr) : m'.Holds rd a := by
  cases a with
  | int32 u | int64 u => simpa only [State.Holds, hgpr] using h
  | float32 p | float64 p => cases hx

/-- Code that leaves a word in a register. -/
theorem Settles.of_word {rs : List Reg} {v : BitVec w.bits}
    (h : Alters c m is rs fun m' => m'.word w rd.toGpr = v) :
    Settles c m is rs rd (some (.ofInt w v)) :=
  h.mono (fun _ => id) fun _ => State.holds_ofInt.mpr

end Machine

/-! ### Values of folding -/

namespace Simplify

variable {x y : BitVec 64}

/-- Folding two constants gives what the operation computes. -/
theorem foldBinary_eq_pureValue {op : Opcode} {u : Const} (hop : op.isIntBinary = true)
    (hty : [u, v].map Const.ty = op.operands) (hx : u.int? = some x) (hy : v.int? = some y)
    (f : FloatModel) : foldBinary op x y = Interp.pureValue f op [u, v] := by
  cases op with
  | arith w o =>
    obtain ⟨p, q, rfl, rfl⟩ := words_of_ty hty
    rw [foldBinary, Const.setWidth_of_int? hx, Const.setWidth_of_int? hy, Interp.pureValue_arith]
  | shift w o =>
    obtain ⟨p, q, rfl, rfl⟩ := words_of_shift hty
    have hq : y.setWidth 32 = q := Const.setWidth_of_int? (w := .w32) hy
    rw [foldBinary, Const.setWidth_of_int? hx, hq, Interp.pureValue_shift]
  | compare w rel =>
    obtain ⟨p, q, rfl, rfl⟩ := words_of_ty hty
    rw [foldBinary, Const.setWidth_of_int? hx, Const.setWidth_of_int? hy, Interp.pureValue_compare]
  | _ => cases hop

end Simplify

/-- The constant of at most 32 bits that an instruction is. -/
def Buffer.imm32? (b : Buffer) (h : Handle) : Option (BitVec 32) :=
  (b.get? h).bind fun i => i.payload.const?.bind Const.imm32?

theorem Buffer.imm32?_of_get {b : Buffer} {h : Handle} {i : Instr} (hi : b.get h = .ok i) :
    b.imm32? h = i.payload.const?.bind Const.imm32? := by
  obtain ⟨hown, hat⟩ : h.buffer = b.id ∧ b.instrs[h.index]? = some i := by
    unfold Buffer.get Buffer.instrAt at hi
    split at hi
    · split at hi <;> cases hi
      exact ⟨‹_›, ‹_›⟩
    · cases hi
  rw [Buffer.imm32?, Buffer.get?, if_pos hown, hat, Option.bind_some]

/-- The opcode of an integer operation of one operand, conversions between integers among them. -/
def Opcode.isIntUnary : Opcode → Bool
  | .unary _ _ | .convert .i2q | .convert .ui2uq | .convert .q2i => true
  | _ => false

namespace Gen

open Machine (Inst State AluOp Surroundings Alters ComesTo Settles)
open Simplify

variable {c : Surroundings} {m m' : State} {rd ra rb : Reg} {w : Width} {rhs : Rhs} {op : Opcode}

/-! ### The second operand -/

/-- A constant of at most 32 bits is the sign extension of its encoding. -/
theorem signExtend_of_imm32? {c : Const} {n : BitVec 32} {w : Width} {v : BitVec w.bits}
    (hn : c.imm32? = some n) (hv : c.word? w = some v) : n.signExtend w.bits = v := by
  cases w <;> cases c <;> simp only [Const.word?, reduceCtorEq] at hv
  · cases hv
    cases hn
    exact BitVec.signExtend_eq _
  · cases hv
    simp only [Const.imm32?] at hn
    split at hn
    · cases hn; assumption
    · cases hn

/-- The instruction that combines a register with the second operand. -/
def Rhs.aluInst (op : AluOp) (w : Width) (r : Reg) : Rhs → Inst
  | .imm k => .aluImm op w r.toGpr k
  | .reg q => .alu op w r.toGpr q.toGpr

/-- The word that such an instruction reads. -/
def Rhs.word (m : State) (w : Width) : Rhs → BitVec w.bits
  | .imm k => k.signExtend w.bits
  | .reg q => m.word w q.toGpr

/-- The second operand is not in the register `rd`. -/
def Rhs.Apart (rd : Reg) : Rhs → Prop
  | .imm _ => True
  | .reg q => q.IsGeneral ∧ q ≠ rd

/-- The second operand has the value `v`, as a constant in the code or in its register. -/
def Rhs.Gives (m : State) (v : Const) : Rhs → Prop
  | .imm k => v.imm32? = some k
  | .reg q => m.Holds q v

theorem Rhs.Gives.word {v : BitVec w.bits} (h : rhs.Gives m (.ofInt w v)) : rhs.word m w = v := by
  cases rhs with
  | imm k => exact signExtend_of_imm32? h (Const.word?_ofInt w v)
  | reg q => exact State.holds_ofInt.mp h

theorem Rhs.Gives.of_gpr {x : BitVec 64} (h : rhs.Gives m v) (hx : v.int? = some x)
    (hgpr : m'.gpr = m.gpr) : rhs.Gives m' v := by
  cases rhs with
  | imm k => exact h
  | reg q => exact State.Holds.of_gpr h hx hgpr

theorem exec_aluRhs (hrd : rd.IsGeneral) (hrhs : rhs.Apart rd) {op : AluOp} (hop : op ≠ .cmp)
    (w : Width) :
    Alters c m [.mov w rd.toGpr ra.toGpr, rhs.aluInst op w rd] [rd] fun m' =>
      m'.word w rd.toGpr = op.apply (m.word w ra.toGpr) (rhs.word m w) := by
  refine Machine.exec_onCopy hrd ?_
  cases rhs with
  | imm k =>
    refine congrArg some ((Machine.execAlu_of_ne hop w rd.toGpr _).trans ?_)
    rw [State.word_setWord_self]
    rfl
  | reg q =>
    refine congrArg some ((Machine.execAlu_of_ne hop w rd.toGpr _).trans ?_)
    rw [State.word_setWord_self, State.word_setWord_of_ne hrd hrhs.1 hrhs.2]
    rfl

theorem exec_compareRhs (hrd : rd.IsGeneral) (rel : IntRel) (w : Width) (rhs : Rhs) :
    Alters c m [rhs.aluInst .cmp w ra, .setcc (condOf rel) rd.toGpr, .movzxByte rd.toGpr rd.toGpr]
      [rd] fun m' => m'.Holds rd (.ofBool (rel.holds (m.word w ra.toGpr) (rhs.word m w))) := by
  refine Machine.exec_compare hrd rel ?_
  cases rhs with
  | imm k => rfl
  | reg q => rfl

/-! ### Sequences -/

/-- The machine operation of an integer operation that has one of its own. -/
def aluOf? : IntOp → Option AluOp
  | .add => some .add
  | .sub => some .sub
  | .and => some .and
  | .or => some .or
  | .xor => some .xor
  | .mul | .div | .rem => none

theorem apply_of_aluOf? {o : IntOp} {op : AluOp} (h : aluOf? o = some op) :
    op ≠ .cmp ∧ ∀ u v : BitVec w.bits, o.apply u v = some (op.apply u v) := by
  cases o <;> cases h <;> exact ⟨by decide, fun _ _ => rfl⟩

/-- `Selects op rd ra rhs setup compute`: the code of `op` on the register `ra` and a second
    operand, with the result in `rd`. The register of the result may be emptied between `setup`
    and `compute`. Divisions take no constant. -/
inductive Selects : Opcode → Reg → Reg → Rhs → List Inst → List Inst → Prop where
  | alu {w : Width} {o : IntOp} {op : AluOp} {rd ra : Reg} {rhs : Rhs} (ho : aluOf? o = some op)
      (hrd : rd.IsGeneral) (hrhs : rhs.Apart rd) :
      Selects (.arith w o) rd ra rhs [] [.mov w rd.toGpr ra.toGpr, rhs.aluInst op w rd]
  | mulImm {w : Width} {rd ra : Reg} {k : BitVec 32} (hrd : rd.IsGeneral) :
      Selects (.arith w .mul) rd ra (.imm k) [] [.imulImm w rd.toGpr ra.toGpr k]
  | mulReg {w : Width} {rd ra rb : Reg} (hrd : rd.IsGeneral) (hrb : rb.IsGeneral) (hne : rb ≠ rd) :
      Selects (.arith w .mul) rd ra (.reg rb) []
        [.mov w rd.toGpr ra.toGpr, .imul w rd.toGpr rb.toGpr]
  | divide {w : Width} {o : IntOp} {rd ra rb : Reg}
      (ho : o = .div ∧ rd = .rax ∨ o = .rem ∧ rd = .rdx) (hrb : rb.IsGeneral) (hnax : rb ≠ .rax)
      (hndx : rb ≠ .rdx) :
      Selects (.arith w o) rd ra (.reg rb) []
        [.mov w Reg.rax.toGpr ra.toGpr, .signExtend w, .idiv w rb.toGpr]
  | shiftImm {w : Width} {o : ShiftOp} {rd ra : Reg} {k : BitVec 32} (hrd : rd.IsGeneral) :
      Selects (.shift w o) rd ra (.imm k) [] [.mov w rd.toGpr ra.toGpr,
        .shiftImm o w rd.toGpr (BitVec.ofNat 6 ((k.setWidth 8).toNat % w.bits))]
  | shiftReg {w : Width} {o : ShiftOp} {rd ra rb : Reg} (hrd : rd.IsGeneral) (hnd : rd ≠ .rcx)
      (hra : ra.IsGeneral) (hna : ra ≠ .rcx) :
      Selects (.shift w o) rd ra (.reg rb) [.mov .w32 Reg.rcx.toGpr rb.toGpr]
        [.mov w rd.toGpr ra.toGpr, .shiftCl o w rd.toGpr]
  | compare {w : Width} {rel : IntRel} {rd ra : Reg} {rhs : Rhs} (hrd : rd.IsGeneral) :
      Selects (.compare w rel) rd ra rhs [] [rhs.aluInst .cmp w ra, .setcc (condOf rel) rd.toGpr,
        .movzxByte rd.toGpr rd.toGpr]

/-- The count of a shift by a constant, of which the code keeps the low bits. -/
theorem shiftCount_mod (k : BitVec 32) (w : Width) :
    (BitVec.ofNat 6 ((k.setWidth 8).toNat % w.bits)).toNat % w.bits = k.toNat % w.bits := by
  rw [BitVec.toNat_ofNat, BitVec.toNat_setWidth]
  cases w <;> simp only [Width.bits] <;> omega

/-- A division comes to its quotient, to its remainder or to a trap. -/
theorem divide_settles {o : IntOp} (ho : o = .div ∧ rd = .rax ∨ o = .rem ∧ rd = .rdx)
    (hrb : rb.IsGeneral) (hnax : rb ≠ .rax) (hndx : rb ≠ .rdx) {u v : BitVec w.bits}
    (hu : m.word w ra.toGpr = u) (hv : m.word w rb.toGpr = v) :
    Settles c m [.mov w Reg.rax.toGpr ra.toGpr, .signExtend w, .idiv w rb.toGpr] [.rax, .rdx] rd
      ((o.apply u v).map (.ofInt w)) := by
  cases htrap : IntOp.divTraps u v with
  | true =>
    have hnone : o.apply u v = none := by
      rcases ho with ⟨rfl, -⟩ | ⟨rfl, -⟩ <;> simp [IntOp.apply, htrap]
    obtain ⟨m', hexec, -, hrax, hrdx, hdiv⟩ :=
      Machine.execAll_divide (c := c) hrb hnax hndx w hu hv
    rw [hnone]
    exact hexec.trans (Machine.execDiv_eq_none hrax hrdx hdiv htrap)
  | false =>
    obtain ⟨m', hexec, hsame, hquot, hrem⟩ :=
      Machine.exec_divide (c := c) hrb hnax hndx w hu hv htrap
    rcases ho with ⟨rfl, rfl⟩ | ⟨rfl, rfl⟩
    · rw [IntOp.apply, htrap]
      exact ⟨m', hexec, hsame, State.holds_ofInt.mpr hquot⟩
    · rw [IntOp.apply, htrap]
      exact ⟨m', hexec, hsame, State.holds_ofInt.mpr hrem⟩

/-- The registers that the code of an operation changes. -/
def touched (op : Opcode) (rd : Reg) : List Reg :=
  if op.canTrap then [.rax, .rdx] else [rd]

variable {setup spill compute : List Inst} {a b : Const} {x y : BitVec 64}

theorem Selects.isIntBinary (h : Selects op rd ra rhs setup compute) : op.isIntBinary = true := by
  cases h <;> rfl

/-- From any state in which the operands are in place, the code of an operation comes to its value,
    and to a trap where there is none. -/
theorem Selects.settles (h : Selects op rd ra rhs [] compute)
    (hty : [a, b].map Const.ty = op.operands) (ha : m.Holds ra a) (hb : rhs.Gives m b)
    (f : FloatModel) :
    Settles c m compute (touched op rd) rd (Interp.pureValue f op [a, b]) := by
  cases h with
  | @alu w o aop _ _ _ ho hrd hrhs =>
    obtain ⟨u, v, rfl, rfl⟩ := words_of_ty hty
    obtain ⟨hcmp, happly⟩ := apply_of_aluOf? ho
    have htrap : Opcode.canTrap (.arith w o) = false := by cases o <;> first | rfl | cases ho
    rw [Interp.pureValue_arith, happly, ← State.holds_ofInt.mp ha, ← hb.word, touched, htrap]
    exact .of_word (exec_aluRhs hrd hrhs hcmp _)
  | mulImm hrd =>
    obtain ⟨u, v, rfl, rfl⟩ := words_of_ty hty
    rw [Interp.pureValue_arith, ← State.holds_ofInt.mp ha, ← hb.word]
    exact .of_word (Machine.exec_imulImm hrd _ _)
  | mulReg hrd hrb hne =>
    obtain ⟨u, v, rfl, rfl⟩ := words_of_ty hty
    rw [Interp.pureValue_arith, ← State.holds_ofInt.mp ha, ← State.holds_ofInt.mp hb]
    exact .of_word (Machine.exec_imul hrd hrb hne _)
  | @divide w o _ _ _ ho hrb hnax hndx =>
    obtain ⟨u, v, rfl, rfl⟩ := words_of_ty hty
    have htrap : Opcode.canTrap (.arith w o) = true := by rcases ho with ⟨rfl, -⟩ | ⟨rfl, -⟩ <;> rfl
    rw [Interp.pureValue_arith, touched, htrap]
    exact divide_settles ho hrb hnax hndx (State.holds_ofInt.mp ha) (State.holds_ofInt.mp hb)
  | @shiftImm w o rd ra n hrd =>
    obtain ⟨u, k, rfl, rfl⟩ := words_of_shift hty
    obtain rfl : k = n := Option.some.inj hb
    rw [Interp.pureValue_shift, ← State.holds_ofInt.mp ha]
    exact .of_word (Machine.exec_shiftImm hrd o w k (shiftCount_mod k w))
  | compare hrd =>
    obtain ⟨u, v, rfl, rfl⟩ := words_of_ty hty
    rw [Interp.pureValue_compare, ← State.holds_ofInt.mp ha, ← hb.word]
    exact exec_compareRhs hrd _ _ _

/-- From any state in which the operands are in place, the code of an operation comes to what
    folding comes to. Stores may stand in between. -/
theorem Selects.comesTo (h : Selects op rd ra rhs setup compute)
    (hty : [a, b].map Const.ty = op.operands) (hx : a.int? = some x) (hy : b.int? = some y)
    (ha : m.Holds ra a) (hb : rhs.Gives m b) (hspill : ∀ i ∈ spill, i.isStore = true) :
    ComesTo c m (setup ++ spill ++ compute) rd (foldBinary op x y) := by
  rw [foldBinary_eq_pureValue h.isIntBinary hty hx hy c.float]
  cases setup with
  | nil =>
    exact .after_stores hspill fun m' hgpr =>
      (h.settles hty (ha.of_gpr hx hgpr) (hb.of_gpr hy hgpr) c.float).comesTo
  | cons i is =>
    cases h with
    | @shiftReg w o rd ra rb hrd hnd hra hna =>
      obtain ⟨u, k, rfl, rfl⟩ := words_of_shift hty
      have hcx : Reg.rcx.IsGeneral := by decide
      rw [Interp.pureValue_shift]
      -- the count goes to its register before anything is stored, and `ra` is another one
      have hmov : Machine.exec c m (.mov .w32 Reg.rcx.toGpr rb.toGpr)
          = some (m.setWord .w32 Reg.rcx.toGpr (m.word .w32 rb.toGpr)) := rfl
      refine .cons hmov (.after_stores hspill fun m' hgpr => ?_)
      have hcount : m'.word .w32 .rcx = k :=
        ((State.word_congr hgpr .w32 .rcx).trans (State.word_setWord_self ..)).trans hb
      have hleft : m'.word w ra.toGpr = u :=
        ((State.word_congr hgpr w ra.toGpr).trans (State.word_setWord_of_ne hcx hra hna ..)).trans
          (State.holds_ofInt.mp ha)
      rw [← hleft]
      exact (Settles.of_word (Machine.exec_shiftCl hrd hnd o w hcount)).comesTo

/-- The code of an integer operation of one operand. -/
def unaryInsts (op : Opcode) (rd ra : Reg) : List Inst :=
  match op with
  | .unary w o => [.mov w rd.toGpr ra.toGpr, .unary o w rd.toGpr]
  | .convert conv => Machine.convertInsts conv rd ra
  | _ => []

theorem exists_foldUnary (hop : op.isIntUnary = true) (x : BitVec 64) :
    ∃ v, foldUnary op x = some v := by
  unfold Opcode.isIntUnary at hop
  split at hop <;> first | exact ⟨_, rfl⟩ | cases hop

/-- From any state in which the operand is in place, the code of an operation of one operand comes
    to what folding comes to. -/
theorem unaryInsts_comesTo (hop : op.isIntUnary = true) (hrd : rd.IsGeneral)
    (hty : [a].map Const.ty = op.operands) (hx : a.int? = some x) (ha : m.Holds ra a)
    (hspill : ∀ i ∈ spill, i.isStore = true) :
    ComesTo c m (spill ++ unaryInsts op rd ra) rd (foldUnary op x) := by
  obtain ⟨v, hv⟩ := exists_foldUnary hop x
  have hvalue := pureValue_of_foldUnary (f := c.float) hv hx hty
  rw [hv]
  refine .after_stores hspill fun m' hgpr => ?_
  cases op with
  | unary w o =>
    obtain ⟨u, rfl⟩ := Const.exists_ofInt (w := w) (List.cons.inj hty).1
    cases (Interp.pureValue_unary w o u).symm.trans hvalue
    rw [← State.holds_ofInt.mp ha, ← State.word_congr hgpr]
    exact (Settles.of_word (Machine.exec_unary hrd o w)).comesTo
  | convert conv =>
    have hrd' : if conv.target.isFloat then rd.IsXmm else rd.IsGeneral := by
      cases conv <;> first | exact hrd | cases hop
    obtain ⟨m'', hexec, -, hholds⟩ := Machine.exec_convert hrd' (ha.of_gpr hx hgpr) hvalue
    exact ⟨m'', hexec, hholds⟩
  | _ => cases hop

/-! ### Code in a function -/

/-- The second operand as a constant. -/
def Rhs.imm? : Rhs → Option (BitVec 32)
  | .imm n => some n
  | .reg _ => none

/-- Code of `op` on the register `ra` and a second operand: one of the sequences, with stores
    in it. -/
def IsCodeOf (op : Opcode) (rd ra : Reg) (rhs : Rhs) (code : List Inst) : Prop :=
  ∃ setup spill compute, Selects op rd ra rhs setup compute ∧
    (∀ i ∈ spill, Inst.isStore i = true) ∧ code = setup ++ spill ++ compute

/-- The operands have their values in the places that the code of an operation reads. -/
def InPlace (x y : Handle) (ra : Reg) (rhs : Rhs) (V : View) (m : State) : Prop :=
  (∀ a, V.env x.index = some a → m.Holds ra a) ∧ ∀ c, V.env y.index = some c → rhs.Gives m c

/-- Between two states of the generator there is code that brings `x` and `y` in place, and then
    code of `op` with its result in `rd`. A constant of at most 32 bits is part of the code,
    except for divisions. -/
structure Lowered (b : Buffer) (info : Infos) (op : Opcode) (k : Nat)
    (x y : Handle) (s s' : CodeState) (rd ra : Reg) (rhs : Rhs) (fetch code : List Inst) :
    Prop where
  emitted : s'.emitter = s.emitter.withOps (fetch ++ code)
  brings : Brings info [x, y] s fetch (InPlace x y ra rhs)
  form : rhs.imm? = if op.canTrap then none else b.imm32? y
  code : IsCodeOf op rd ra rhs code
  result : InRegister s' k rd

/-- Code of an operation of two operands was generated. -/
def Lowers (b : Buffer) (info : Infos) (op : Opcode) (k : Nat) (x y : Handle)
    (s s' : CodeState) : Prop :=
  ∃ rd ra rhs fetch code, Lowered b info op k x y s s' rd ra rhs fetch code

/-- Code of `op` on the register `ra`, with stores in front. -/
def IsUnaryCodeOf (op : Opcode) (rd ra : Reg) (code : List Inst) : Prop :=
  rd.IsGeneral ∧ ∃ spill, (∀ i ∈ spill, Inst.isStore i = true) ∧ code = spill ++ unaryInsts op rd ra

/-- Between two states of the generator there is code that brings `x` into `ra`, and then code of
    `op` with its result in `rd`. -/
structure LoweredUnary (info : Infos) (op : Opcode) (k : Nat) (x : Handle)
    (s s' : CodeState) (rd ra : Reg) (fetch code : List Inst) : Prop where
  emitted : s'.emitter = s.emitter.withOps (fetch ++ code)
  brings : Brings info [x] s fetch fun V m => ∀ a, V.env x.index = some a → m.Holds ra a
  code : IsUnaryCodeOf op rd ra code
  result : InRegister s' k rd

/-- Code of an operation of one operand was generated. -/
def LowersUnary (info : Infos) (op : Opcode) (k : Nat) (x : Handle)
    (s s' : CodeState) : Prop :=
  ∃ rd ra fetch code, LoweredUnary info op k x s s' rd ra fetch code

end Gen

end JitBackend
