import JitBackend.Proofs.Discipline

namespace JitBackend

/-!
# Folding and generated code

Constants are folded while a function is written, and code is generated for what was not folded.
Both compute the same: the code of an integer operation is one of the sequences of
`Gen.Selects`, behind code that brings the operands in place.

* `Gen.Agrees`, `Gen.AgreesUnary` — code leaves what folding yields;
* `Gen.Stepped.lowering` — the code that is generated for an integer operation is such code;
* `Gen.folding_agrees_with_code` — folding and code agree, for both forms of the second operand.
-/

namespace Gen

open Machine (Inst State Runs Emitter Surroundings Produces)
open Simplify

variable {info : Infos} {k : Nat} {s s' : CodeState} {x y : Handle} {b : Buffer}
  {op : Opcode} {n : BitVec 32} {code : List Inst} {rd ra : Reg}

/-! ### Folding and code agree -/

/-- Run on registers that hold `u` and `v`, the code leaves in `rd` what folding `u` and `v`
    yields, and traps where it yields nothing. -/
def Agrees (op : Opcode) (rd ra : Reg) (rhs : Rhs) (code : List Inst) : Prop :=
  ∀ (c : Surroundings) (m : State) (u v r : Const) (x y : BitVec 64),
    [u, v].map Const.ty = op.operands → u.int? = some x → v.int? = some y →
    op.result = .val r.ty → m.Holds ra u → rhs.Gives m v →
    (foldBinary op x y = some r ↔ Produces c m code rd r)

/-- The same for an operation of one operand. -/
def AgreesUnary (op : Opcode) (rd ra : Reg) (code : List Inst) : Prop :=
  ∀ (c : Surroundings) (m : State) (u r : Const) (x : BitVec 64),
    [u].map Const.ty = op.operands → u.int? = some x → op.result = .val r.ty → m.Holds ra u →
    (foldUnary op x = some r ↔ Produces c m code rd r)

theorem IsCodeOf.agrees {rhs : Rhs} (h : IsCodeOf op rd ra rhs code) :
    Agrees op rd ra rhs code := by
  obtain ⟨setup, spill, compute, hsel, hspill, rfl⟩ := h
  intro c m u v r x y hty hx hy hr hu hv
  refine (hsel.comesTo hty hx hy hu hv hspill).eq_some_iff fun z hz => ?_
  exact Ty.val.inj ((result_of_foldBinary hz).symm.trans hr)

theorem IsUnaryCodeOf.agrees (hop : op.isIntUnary = true) (h : IsUnaryCodeOf op rd ra code) :
    AgreesUnary op rd ra code := by
  obtain ⟨hrd, spill, hspill, rfl⟩ := h
  intro c m u r x hty hx hr hu
  refine (unaryInsts_comesTo hop hrd hty hx hu hspill).eq_some_iff fun z hz => ?_
  exact Ty.val.inj ((result_of_foldUnary hz).symm.trans hr)

/-- Operands of code of an operation are integers. -/
theorem IsCodeOf.ints {rhs : Rhs} {u v : Const} (h : IsCodeOf op rd ra rhs code)
    (hty : [u, v].map Const.ty = op.operands) : ∃ x y, u.int? = some x ∧ v.int? = some y := by
  obtain ⟨setup, spill, compute, hsel, -⟩ := h
  have hint : ∀ (w : Width) (z : BitVec w.bits), ∃ x, (Const.ofInt w z).int? = some x := by
    intro w z
    cases w <;> exact ⟨_, rfl⟩
  have hwords : ∃ w w' p q, u = .ofInt w p ∧ v = .ofInt w' q := by
    cases hsel with
    | alu | mulImm | mulReg | divide | compare =>
      obtain ⟨p, q, rfl, rfl⟩ := words_of_ty hty
      exact ⟨_, _, p, q, rfl, rfl⟩
    | shiftImm | shiftReg =>
      obtain ⟨p, q, rfl, rfl⟩ := words_of_shift hty
      exact ⟨_, .w32, p, q, rfl, rfl⟩
  obtain ⟨w, w', p, q, rfl, rfl⟩ := hwords
  obtain ⟨x, hx⟩ := hint w p
  obtain ⟨y, hy⟩ := hint w' q
  exact ⟨x, y, hx, hy⟩

/-- Code with a constant in it computes what code with the constant in a register computes. -/
theorem IsCodeOf.forms_agree {rd' ra' rb : Reg} {code' : List Inst}
    (h : IsCodeOf op rd ra (.imm n) code) (h' : IsCodeOf op rd' ra' (.reg rb) code')
    {c c' : Surroundings} {m m' : State} {u v r : Const} (hty : [u, v].map Const.ty = op.operands)
    (hr : op.result = .val r.ty) (hn : v.imm32? = some n) (hu : m.Holds ra u) (hu' : m'.Holds ra' u)
    (hv : m'.Holds rb v) : Produces c m code rd r ↔ Produces c' m' code' rd' r := by
  obtain ⟨x, y, hx, hy⟩ := h.ints hty
  rw [← h.agrees c m u v r x y hty hx hy hr hu hn, ← h'.agrees c' m' u v r x y hty hx hy hr hu' hv]

/-! ### The code of a function -/

variable {l : Liveness} {i : Instr}

theorem Lowers.quiet {s1 : CodeState} (h : Lowers b info op k x y s s1) (hq : Quiet s1 s') :
    Lowers b info op k x y s s' := by
  obtain ⟨rd, ra, rhs, fetch, code, h⟩ := h
  refine ⟨rd, ra, rhs, fetch, code, hq.emitter.trans h.emitted, h.brings, h.form, h.code, ?_⟩
  rw [InRegister, hq.values]
  exact h.result

theorem LowersUnary.quiet {s1 : CodeState} (h : LowersUnary info op k x s s1)
    (hq : Quiet s1 s') : LowersUnary info op k x s s' := by
  obtain ⟨rd, ra, fetch, code, h⟩ := h
  refine ⟨rd, ra, fetch, code, hq.emitter.trans h.emitted, h.brings, h.code, ?_⟩
  rw [InRegister, hq.values]
  exact h.result

section Function

variable (hb : b.Validated) (ha : Liveness.Analysis b l) (hh : Homed b l info)
  (hE : Emitted b l info k s) (hi : b.instrs[k]? = some i) (hlive : l.isLive k = true)
  (h : Stepped b l info k i s s')

include hb ha hh hE hi hlive h

/-- The code of a needed integer operation within that of a function. -/
theorem Stepped.lowering (hpure : i.opcode.effect = .pure) (himm : i.opcode.isImmediate = false) :
    Lowering b info i.opcode k i.operandList s s' := by
  obtain ⟨hsite, hknown, hres⟩ := value_site hb ha hh hi hlive hpure himm
  obtain ⟨s1, hok, hq, -⟩ := h.code hlive
  have hlow := ((value_yields hh.consts hE.coherent hE.pinned hsite hknown hres hpure
    himm).of_ok hok).2
  refine ⟨fun hop => ?_, fun hop => ?_⟩
  · obtain ⟨x, y, hxy, h⟩ := hlow.two hop
    exact ⟨x, y, hxy, h.quiet hq⟩
  · obtain ⟨x, hx, h⟩ := hlow.one hop
    exact ⟨x, hx, h.quiet hq⟩

theorem Stepped.lowers (hop : i.opcode.isIntBinary = true) :
    ∃ x y, i.operandList = [x, y] ∧ Lowers b info i.opcode k x y s s' := by
  have hpure : i.opcode.effect = .pure ∧ i.opcode.isImmediate = false := by
    revert hop
    cases i.opcode <;> simp [Opcode.isIntBinary, Opcode.effect, Opcode.isImmediate]
  exact (h.lowering hb ha hh hE hi hlive hpure.1 hpure.2).two hop

theorem Stepped.lowersUnary (hop : i.opcode.isIntUnary = true) :
    ∃ x, i.operandList = [x] ∧ LowersUnary info i.opcode k x s s' := by
  have hpure : i.opcode.effect = .pure ∧ i.opcode.isImmediate = false := by
    revert hop
    cases i.opcode <;> simp [Opcode.isIntUnary, Opcode.effect, Opcode.isImmediate]
  exact (h.lowering hb ha hh hE hi hlive hpure.1 hpure.2).one hop

end Function

theorem isLive_of_opening {limit : Nat} {a : Account} (hb : b.Validated)
    (hopen : opening b limit (CodeState.initial b a) = .ok l s) (hk : b.Live k) :
    l.isLive k = true :=
  (((opening_ends hb a).of_ok hopen).analysis.live_iff k).mpr hk

/-- Folding a constant operation and running its code come to the same. The code of an integer
    operation leaves in its register what folding yields and traps where folding yields nothing,
    from every state of the machine with the operands in place. It does not matter whether a
    constant is in the code or in a register. Generated code is such code. -/
theorem folding_agrees_with_code :
    (∀ op rd ra rhs code, IsCodeOf op rd ra rhs code → Agrees op rd ra rhs code) ∧
    (∀ op rd ra code, op.isIntUnary = true → IsUnaryCodeOf op rd ra code →
      AgreesUnary op rd ra code) ∧
    (∀ op n rd ra code rd' ra' rb code', IsCodeOf op rd ra (.imm n) code →
      IsCodeOf op rd' ra' (.reg rb) code' → ∀ (c c' : Surroundings) (m m' : State) (u v r : Const),
      [u, v].map Const.ty = op.operands → op.result = .val r.ty → v.imm32? = some n →
      m.Holds ra u → m'.Holds ra' u → m'.Holds rb v →
      (Produces c m code rd r ↔ Produces c' m' code' rd' r)) ∧
    ∀ (b : Buffer) (limit : Nat) (a : Account) (l : Liveness) (s : CodeState), b.Validated →
      b.ArgsAreValues → opening b limit (CodeState.initial b a) = .ok l s →
      ∀ k i, b.instrs[k]? = some i → l.isLive k = true →
        (i.opcode.isIntBinary = true → ∃ x y, i.operandList = [x, y] ∧
          Lowers b (b.infoAt l.isLive) i.opcode k x y (stateAt b l s k) (stateAt b l s (k + 1))) ∧
        (i.opcode.isIntUnary = true → ∃ x, i.operandList = [x] ∧
          LowersUnary (b.infoAt l.isLive) i.opcode k x (stateAt b l s k)
            (stateAt b l s (k + 1))) := by
  refine ⟨fun _ _ _ _ _ h => h.agrees, fun _ _ _ _ hop h => h.agrees hop,
    fun _ _ _ _ _ _ _ _ _ h h' _ _ _ _ _ _ _ => h.forms_agree h', ?_⟩
  intro b limit a l s hb hargs hopen k i hi hlive
  have hO := (opening_ends hb a).of_ok hopen
  have hh := homed_infoAt (l := l) hb
  have hlt : k < b.size := (Array.getElem?_eq_some_iff.mp hi).1
  have hE := (bodyUpTo_ok hb hargs hO.analysis hh hO.emitted hO.targets (Nat.le_of_lt hlt)).2
  have hstep := stateAt_stepped hb hargs hO.analysis hh hO.emitted hO.targets hi
  exact ⟨hstep.lowers hb hO.analysis hh hE hi hlive,
    hstep.lowersUnary hb hO.analysis hh hE hi hlive⟩

/-- A shift by -1 keeps the low bits of its count in either form, whatever is in the upper half of
    the register, the least integer divided by -1 traps, and the subtraction in the loop of
    `Buffer.countdown` has such code. -/
theorem folding_agrees_with_code_countdown :
    (∀ (c : Surroundings) (m : State),
      Produces c (m.setGpr Reg.rbx.toGpr 0xFFFFFFFF00000001)
        [.mov .w32 Reg.rsi.toGpr Reg.rbx.toGpr, .shiftImm .shl .w32 Reg.rsi.toGpr 31] .rsi
        (.int32 0x80000000) ∧
      Produces c ((m.setGpr Reg.rbx.toGpr 1).setGpr Reg.rdx.toGpr 0xFFFFFFFF)
        [.mov .w32 Reg.rcx.toGpr Reg.rdx.toGpr, .mov .w32 Reg.rsi.toGpr Reg.rbx.toGpr,
          .shiftCl .shl .w32 Reg.rsi.toGpr] .rsi (.int32 0x80000000) ∧
      ¬ Produces c ((m.setGpr Reg.rbx.toGpr (BitVec.intMin 64)).setGpr Reg.rsi.toGpr (-1))
        [.mov .w64 Reg.rax.toGpr Reg.rbx.toGpr, .signExtend .w64, .idiv .w64 Reg.rsi.toGpr] .rax
        (.int64 (BitVec.intMin 64))) ∧
    ∃ l s, opening .countdown 4096 (CodeState.initial .countdown ⟨.zero, #[]⟩) = .ok l s ∧
      l.isLive 7 = true ∧ Lowers .countdown (Buffer.countdown.infoAt l.isLive) (.arith .w64 .sub) 7
        ⟨0, 5⟩ ⟨0, 6⟩ (stateAt .countdown l s 7) (stateAt .countdown l s 8) := by
  obtain ⟨hagrees, -, -, hgen⟩ := folding_agrees_with_code
  have himm : IsCodeOf (.shift .w32 .shl) .rsi .rbx (.imm 0xFFFFFFFF)
      [.mov .w32 Reg.rsi.toGpr Reg.rbx.toGpr, .shiftImm .shl .w32 Reg.rsi.toGpr 31] :=
    ⟨[], [], _, .shiftImm (by decide), List.forall_mem_nil _, rfl⟩
  have hreg : IsCodeOf (.shift .w32 .shl) .rsi .rbx (.reg .rdx)
      [.mov .w32 Reg.rcx.toGpr Reg.rdx.toGpr, .mov .w32 Reg.rsi.toGpr Reg.rbx.toGpr,
        .shiftCl .shl .w32 Reg.rsi.toGpr] :=
    ⟨_, [], _, .shiftReg (by decide) (by decide) (by decide) (by decide), List.forall_mem_nil _,
      rfl⟩
  have hdiv : IsCodeOf (.arith .w64 .div) .rax .rbx (.reg .rsi)
      [.mov .w64 Reg.rax.toGpr Reg.rbx.toGpr, .signExtend .w64, .idiv .w64 Reg.rsi.toGpr] :=
    ⟨[], [], _, .divide (by decide) (by decide) (by decide) (by decide), List.forall_mem_nil _,
      rfl⟩
  have hone : (Const.int32 1).int? = some 1 := by decide
  have hcount : (Const.int32 0xFFFFFFFF).int? = some (-1) := by decide
  have hfold : foldBinary (.shift .w32 .shl) 1 (-1) = some (.int32 0x80000000) := by decide
  have htrap : foldBinary (.arith .w64 .div) (BitVec.intMin 64) (-1) = none := by decide
  refine ⟨fun c m => ⟨?_, ?_, ?_⟩, ?_⟩
  · refine (hagrees _ _ _ _ _ himm c _ _ _ _ _ _ rfl hone hcount rfl ?_ rfl).mp hfold
    rw [State.Holds, State.gpr_setGpr_self]; rfl
  · refine (hagrees _ _ _ _ _ hreg c _ _ _ _ _ _ rfl hone hcount rfl ?_ ?_).mp hfold
    · rw [State.Holds, State.gpr_setGpr_of_ne (by decide), State.gpr_setGpr_self]; rfl
    · rw [Rhs.Gives, State.Holds, State.gpr_setGpr_self]; rfl
  · rw [← hagrees _ _ _ _ _ hdiv c _ (.int64 (BitVec.intMin 64)) (.int64 (-1)) _
      (BitVec.intMin 64) (-1) rfl rfl rfl rfl ?_ ?_, htrap]
    · simp
    · rw [State.Holds, State.gpr_setGpr_of_ne (by decide), State.gpr_setGpr_self]
    · rw [Rhs.Gives, State.Holds, State.gpr_setGpr_self]
  · obtain ⟨l, s, hopen⟩ := Step.exists_of_succeeds (x := opening .countdown 4096)
      (s := CodeState.initial .countdown ⟨.zero, #[]⟩) (by decide +kernel)
    have hlive : l.isLive 7 = true := by
      refine isLive_of_opening Buffer.countdown_validated hopen ?_
      exact .used (h := ⟨0, 7⟩) (.kept (n := 8) rfl rfl) rfl (by decide)
    obtain ⟨x, y, hxy, hlow⟩ := (hgen _ _ _ l s Buffer.countdown_validated (by decide) hopen 7
      (.plain (.arith .w64 .sub) [⟨0, 5⟩, ⟨0, 6⟩]) rfl hlive).1 rfl
    cases hxy
    exact ⟨l, s, hopen, hlive, hlow⟩

end Gen

end JitBackend
