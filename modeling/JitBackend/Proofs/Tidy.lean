import JitBackend.Proofs.Generation

namespace JitBackend

/-!
# Disciplined code for every instruction

Whatever registers the allocator picks, the code that is generated for the instructions of a
function is disciplined.

* `Gen.instruction_keeps` — the code for one instruction, `Gen.body_keeps` — the code for all of
  them.
-/

namespace Gen

open Machine (Emitter)
open Ground (Keeps)

variable {G : Ground}

/-! ### Instruction selection -/

section Selection

variable {b : Buffer} {index : Nat} {ops : List Handle} {rd ra rb : Reg}

theorem operand_keeps (ops : List Handle) (k : Nat) : G.Keeps (operand ops k) :=
  ⟨fun _ => .orFault _ _, fun _ => (Step.keeps_orFault _ _).mono fun _ _ => trivial⟩

/-- An operand is brought into a register. -/
theorem useOperand_keeps {α : Type} {exclude : RegSet} {f : Reg → Gen α} {Q : α → Prop} (k : Nat)
    (hf : ∀ r, (G.sure → r.Free) → G.Keeps (f r) Q) :
    G.Keeps (operand ops k >>= fun h => useReg h exclude >>= f) Q :=
  (operand_keeps ops k).bind fun h _ => (useReg_keeps h exclude).bind hf

theorem imm32Of_keeps (b : Buffer) (h : Handle) : G.Keeps (imm32Of b h) :=
  (Keeps.liftFault _).bind fun _ _ => .pure fun _ => trivial

theorem useRhs_keeps (b : Buffer) (h : Handle) : G.Keeps (useRhs b h) := by
  refine (imm32Of_keeps b h).bind fun o _ => ?_
  split
  · exact .pure fun _ => trivial
  · exact (useAny_keeps h).bind fun _ _ => .pure fun _ => trivial

theorem labelOf_keeps (b : Buffer) (index : Nat) (target : Option Handle) :
    G.Keeps (labelOf b index target) :=
  .read (fun _ _ => rfl) fun _ _ => (Keeps.orFail _ _).mono fun _ _ _ => trivial

theorem aluRhs_keeps (op : Machine.AluOp) (w : Width) (hd : G.sure → rd.Free) (rhs : Rhs) :
    G.Keeps (aluRhs op w rd rhs) := by
  cases rhs with
  | imm k => exact .emit (.aluImm ..) hd
  | reg r => exact .emit (.alu ..) hd

theorem signMask_keeps (s : FloatSize) : G.Keeps (signMask s) := by
  cases s with
  | single =>
    refine .seq (.emit (.movImm32 ..) fun _ => scratch_free) ?_
    exact .emit (.movBits ..) fun _ => trivial
  | double =>
    refine .seq (.emit (.movImm64 ..) fun _ => scratch_free) ?_
    exact .emit (.movBits ..) fun _ => trivial

theorem floatRel_keeps (rel : FloatRel) (s : FloatSize) (hd : G.sure → rd.Free) :
    G.Keeps (floatRel rel s rd ra rb) := by
  cases rel with
  | eq =>
    refine .seq (.emit (.ucomis ..) fun _ => trivial) ?_
    refine .seq (.emit (.setcc ..) hd) ?_
    refine .seq (.emit (.setcc ..) fun _ => scratch_free) ?_
    exact .emit (.andByte ..) hd
  | lt | gt | le | ge =>
    exact .seq (.emit (.ucomis ..) fun _ => trivial) <| .emit (.setcc ..) hd

theorem signedToFloat_keeps (s : FloatSize) (w : Width) : G.Keeps (signedToFloat s w rd ra) :=
  .seq (.emit (.xorps ..) fun _ => trivial) <| .emit (.intToFloat ..) fun _ => trivial

theorem unsignedToFloat_keeps (s : FloatSize) : G.Keeps (unsignedToFloat s rd ra) :=
  .seq (.emit (.mov ..) fun _ => scratch_free) <| signedToFloat_keeps s .w64

theorem convertReg_keeps (c : Conversion) (hd : G.sure → rd.Free) :
    G.Keeps (convertReg c rd ra) := by
  cases c with
  | i2q => exact .emit (.movsxd ..) hd
  | ui2uq | q2i => exact .emit (.mov ..) hd
  | i2d | q2d | i2f => exact signedToFloat_keeps _ _
  | ui2d | ui2f => exact unsignedToFloat_keeps _
  | d2i | d2q | f2i => exact .emit (.floatToInt ..) hd
  | f2d | d2f => exact .emit (.resize ..) fun _ => trivial

theorem selectReg_keeps (t : ValTy) (hd : G.sure → rd.Free) (rc yes no : Reg) :
    G.Keeps (selectReg t rd rc yes no) := by
  cases t with
  | float s =>
    refine .bind .newLabel fun skip _ => .seq (.emit (.movaps ..) fun _ => trivial) ?_
    refine .seq (.emit (.test ..) fun _ => trivial) <| .seq (.jcc _ skip) ?_
    exact .seq (.emit (.movaps ..) fun _ => trivial) <| .bindLabel skip
  | int w =>
    refine .seq (.emit (.mov ..) hd) ?_
    exact .seq (.emit (.test ..) fun _ => trivial) <| .emit (.cmovne ..) hd

theorem loadReg_keeps (k : LoadKind) (hd : G.sure → rd.Free) (base : Reg) (disp : BitVec 32) :
    G.Keeps (loadReg k rd base disp) := by
  unfold loadReg
  split
  case h_7 => exact .emit (.loadFloat ..) fun _ => trivial
  case h_8 =>
    refine .seq (.emit (.loadFloat ..) fun _ => trivial) ?_
    exact .emit (.resize ..) fun _ => trivial
  all_goals exact .emit (.load ..) hd

/-- The program's own stores go through a register that a value is in. -/
theorem storeReg_keeps (k : StoreKind) {base : Reg} (hb : G.sure → base.Free) (q : Reg)
    (disp : BitVec 32) : G.Keeps (storeReg k q base disp) := by
  have hfits : G.sure → Emitter.StoreFits (IsSlot G.info) G.room base disp := fun hs => .free (hb hs)
  unfold storeReg
  split
  case h_5 => exact .emit (.storeFloat ..) hfits
  all_goals exact .emit (.store ..) hfits

theorem store_keeps (k : StoreKind) (disp : BitVec 32) : G.Keeps (store k disp ops) := by
  refine useOperand_keeps 0 fun q _ => ?_
  refine useOperand_keeps 1 fun base hb => ?_
  exact (storeReg_keeps k hb q disp).seq <| finishUses_keeps ops

variable (hv : G.sure → ∀ i, G.info index = some i → i.writable = true)
include hv

/-- The end of the code for a computed value. -/
theorem deliver_keeps (hd : G.sure → rd.Free) (ops : List Handle) :
    G.Keeps (do finishUses ops; define index rd) :=
  (finishUses_keeps ops).seq <| define_keeps hv hd

theorem alu_keeps (op : Machine.AluOp) (w : Width) : G.Keeps (alu b index op w ops) := by
  refine useOperand_keeps 0 fun ra _ => ?_
  refine (operand_keeps ops 1).bind fun h _ => (useRhs_keeps b h).bind fun rhs _ => ?_
  refine (defAny_keeps index).bind fun rd hd => .seq (.emit (.mov ..) hd) ?_
  exact (aluRhs_keeps op w hd rhs).seq <| deliver_keeps hv hd ops

theorem multiply_keeps (w : Width) : G.Keeps (multiply b index w ops) := by
  refine useOperand_keeps 0 fun ra _ => ?_
  refine (operand_keeps ops 1).bind fun h _ => (imm32Of_keeps b h).bind fun o _ => ?_
  split
  · refine (defAny_keeps index).bind fun rd hd => .seq (.emit (.imulImm ..) hd) ?_
    exact deliver_keeps hv hd ops
  · refine (useAny_keeps h).bind fun rb _ => (defAny_keeps index).bind fun rd hd => ?_
    refine .seq (.emit (.mov ..) hd) <| .seq (.emit (.imul ..) hd) ?_
    exact deliver_keeps hv hd ops

theorem divide_keeps (w : Width) (remainder : Bool) : G.Keeps (divide index w remainder ops) := by
  refine (evict_keeps _).seq <| (evict_keeps _).seq ?_
  refine useOperand_keeps 0 fun ra _ => ?_
  refine useOperand_keeps 1 fun rb _ => ?_
  refine .seq (.emit (.mov ..) fun _ => rax_free) ?_
  refine .seq (.emit (.idiv ..) fun _ => trivial) ?_
  refine (finishUses_keeps ops).seq <| .seq (.registers (standard.assign _ _).keeps) ?_
  refine .seq (.count Stats.addRegister fun _ => rfl) <| define_keeps hv fun _ => ?_
  cases remainder <;> decide

theorem shift_keeps (op : ShiftOp) (w : Width) : G.Keeps (shift b index op w ops) := by
  refine (operand_keeps ops 1).bind fun h _ => (imm32Of_keeps b h).bind fun o _ => ?_
  split
  · refine useOperand_keeps 0 fun ra _ => ?_
    refine (defAny_keeps index).bind fun rd hd => .seq (.emit (.mov ..) hd) ?_
    exact .seq (.emit (.shiftImm ..) hd) <| deliver_keeps hv hd ops
  · have hcount : Reg.rcx.Free := by decide
    refine (evict_keeps _).seq ?_
    refine useOperand_keeps 0 fun ra _ => ?_
    refine useOperand_keeps 1 fun rb _ => ?_
    refine .seq (.emit (.mov ..) fun _ => hcount) ?_
    refine (defReg_keeps index _).bind fun rd hd => .seq (.emit (.mov ..) hd) ?_
    exact .seq (.emit (.shiftCl ..) hd) <| deliver_keeps hv hd ops

theorem unary_keeps (op : IntUnary) (w : Width) : G.Keeps (unary index op w ops) := by
  refine useOperand_keeps 0 fun ra _ => ?_
  refine (defAny_keeps index).bind fun rd hd => .seq (.emit (.mov ..) hd) ?_
  exact .seq (.emit (.unary ..) hd) <| deliver_keeps hv hd ops

theorem arith_keeps (op : IntOp) (w : Width) : G.Keeps (arith b index op w ops) := by
  cases op with
  | add | sub | and | or | xor => exact alu_keeps hv _ w
  | mul => exact multiply_keeps hv w
  | div | rem => exact divide_keeps hv w _

theorem compare_keeps (rel : IntRel) (w : Width) : G.Keeps (compare b index rel w ops) := by
  refine useOperand_keeps 0 fun ra ha => ?_
  refine (operand_keeps ops 1).bind fun h _ => (useRhs_keeps b h).bind fun rhs _ => ?_
  refine (defAny_keeps index).bind fun rd hd => (aluRhs_keeps .cmp w ha rhs).seq ?_
  refine .seq (.emit (.setcc ..) hd) <| .seq (.emit (.movzxByte ..) hd) ?_
  exact deliver_keeps hv hd ops

theorem floatArith_keeps (op : FloatOp) (s : FloatSize) : G.Keeps (floatArith index op s ops) := by
  refine useOperand_keeps 0 fun ra _ => ?_
  refine useOperand_keeps 1 fun rb _ => ?_
  refine (defAny_keeps index).bind fun rd hd => ?_
  refine .seq (.emit (.movaps ..) fun _ => trivial) ?_
  exact .seq (.emit (.floatArith ..) fun _ => trivial) <| deliver_keeps hv hd ops

theorem floatNeg_keeps (s : FloatSize) : G.Keeps (floatNeg index s ops) := by
  refine useOperand_keeps 0 fun ra _ => ?_
  refine (defAny_keeps index).bind fun rd hd => ?_
  refine .seq (.emit (.movaps ..) fun _ => trivial) <| (signMask_keeps s).seq ?_
  exact .seq (.emit (.xorps ..) fun _ => trivial) <| deliver_keeps hv hd ops

theorem floatCompare_keeps (rel : FloatRel) (s : FloatSize) :
    G.Keeps (floatCompare index rel s ops) := by
  refine useOperand_keeps 0 fun ra _ => ?_
  refine useOperand_keeps 1 fun rb _ => ?_
  refine (defAny_keeps index).bind fun rd hd => (floatRel_keeps rel s hd).seq ?_
  exact .seq (.emit (.movzxByte ..) hd) <| deliver_keeps hv hd ops

theorem convert_keeps (c : Conversion) : G.Keeps (convert index c ops) := by
  refine useOperand_keeps 0 fun ra _ => ?_
  refine (defAny_keeps index).bind fun rd hd => (convertReg_keeps c hd).seq ?_
  exact deliver_keeps hv hd ops

theorem select_keeps (t : ValTy) : G.Keeps (select index t ops) := by
  refine useOperand_keeps 0 fun rc _ => ?_
  refine useOperand_keeps 1 fun yes _ => ?_
  refine useOperand_keeps 2 fun no _ => ?_
  refine (defAny_keeps index).bind fun rd hd => ?_
  exact (selectReg_keeps t hd rc yes no).seq <| deliver_keeps hv hd ops

theorem loadValue_keeps (k : LoadKind) (disp : BitVec 32) : G.Keeps (load index k disp ops) := by
  refine useOperand_keeps 0 fun base _ => ?_
  refine (defAny_keeps index).bind fun rd hd => (loadReg_keeps k hd base disp).seq ?_
  exact deliver_keeps hv hd ops

end Selection

/-! ### Calls -/

section Calls

variable {index : Nat}

theorem argument_free (a : Assigner) (t : Ty) {r : Reg}
    (h : (a.argument t).1.place = .register r) : r.Free := by
  have hint : ∀ q ∈ Convention.intArgs, q.Free := by decide
  have hfloat : ∀ q ∈ Convention.floatArgs, q.Free := by decide
  rcases a.argument_cases t with ⟨-, q, hq, hp, -⟩ | ⟨-, q, hq, hp, -⟩ | ⟨-, hp, -⟩
  · rw [hp] at h
    cases h
    exact hint _ (List.mem_of_getElem? hq)
  · rw [hp] at h
    cases h
    exact hfloat _ (List.mem_of_getElem? hq)
  · rw [hp] at h
    cases h

/-- An argument on the stack is the last one before the stack that is used up then. -/
theorem argument_stack (a : Assigner) (t : Ty) {offset : Nat}
    (h : (a.argument t).1.place = .stack offset) : offset + 8 = (a.argument t).2.stack := by
  rcases a.argument_cases t with ⟨-, q, -, hp, -⟩ | ⟨-, q, -, hp, -⟩ | ⟨-, hp, ha⟩
  · rw [hp] at h
    cases h
  · rw [hp] at h
    cases h
  · rw [hp] at h
    cases h
    rw [ha]

theorem passArgument_keeps (h : Handle) (t : Ty) {p : Place} (hreg : ∀ r, p = .register r → r.Free)
    (hstack : G.sure → ∀ offset, p = .stack offset → offset + 8 ≤ G.room) :
    G.Keeps (passArgument h t p) := by
  cases p with
  | register r => exact fill_keeps _ fun _ => hreg r rfl
  | stack offset =>
    refine .seq (fill_keeps _ fun _ => by split <;> decide) ?_
    exact storeTo_keeps _ _ fun hs => .argument (hstack hs offset rfl)
  | nowhere => exact .done

/-- Arguments go to the room that was made for them. -/
theorem passArguments_keeps {ty : Handle → Ty} (a : Assigner) {hs : List Handle}
    (hty : G.sure → ∀ h ∈ hs, ∀ i, G.info h.index = some i → ty h = .val i.ty)
    (hroom : G.sure → (a.arguments (hs.map ty)).2.stack ≤ G.room) :
    G.Keeps (passArguments a hs) := by
  induction hs generalizing a with
  | nil => exact .done
  | cons h hs ih =>
    refine (valueOf_keeps _).bind fun x hx => ?_
    -- both runs of the assigner see the same types
    have hrest : G.sure → ((a.argument x.ty).2.arguments (hs.map ty)).2.stack ≤ G.room := by
      intro hg
      obtain ⟨i, hi, hxt, -⟩ := hx hg
      rw [hxt.trans (hty hg h (by simp) i hi).symm]
      exact hroom hg
    refine .seq (passArgument_keeps h x.ty (fun r => argument_free a _) fun hg offset hoff => ?_) <|
      ih _ (fun hg h' hh => hty hg h' (by simp [hh])) hrest
    rw [argument_stack a _ hoff]
    exact Nat.le_trans (Assigner.stack_arguments _ _) (hrest hg)

theorem call_keeps {ty : Handle → Ty} (result : Ty) {site : CallSite}
    (hv : G.sure → ∀ i, G.info index = some i → i.writable = true)
    (hty : G.sure → ∀ h ∈ site.args, ∀ i, G.info h.index = some i → ty h = .val i.ty)
    (hroom : G.sure → (Assigner.fresh.arguments (site.args.map ty)).2.stack ≤ G.room) :
    G.Keeps (call index result site) := by
  refine syncAll_keeps.seq <| clearAll_keeps.seq ?_
  refine .seq (.report rfl) <| (passArguments_keeps _ hty hroom).seq ?_
  refine .seq (.emit (.movImm64 ..) fun _ => scratch_free) ?_
  refine .seq (.emit (.call ..) fun _ => trivial) ?_
  refine (finishUses_keeps _).seq <| .seq (.count Stats.addCall fun _ => rfl) ?_
  refine .seq (.report rfl) ?_
  split
  · refine .seq (.registers (standard.assign _ _).keeps) <| define_keeps hv fun _ => ?_
    rcases result with _ | ((_ | _) | (_ | _)) <;> decide
  · exact .done

end Calls

/-! ### Control flow -/

section Control

variable {b : Buffer} {index : Nat} {ops : List Handle}

section

variable (b : Buffer) (index : Nat)

theorem label_keeps : G.Keeps (label b index) := by
  refine syncAll_keeps.seq <| clearAll_keeps.seq ?_
  exact (labelOf_keeps _ _ _).bind fun l _ => .bindLabel l

theorem jump_keeps (target : Option Handle) : G.Keeps (jump b index target) := by
  refine (labelOf_keeps _ _ _).bind fun l _ => syncAll_keeps.seq ?_
  exact .seq (.jmp l) clearAll_keeps

theorem branch_keeps (sense : Bool) (target : Option Handle) (ops : List Handle) :
    G.Keeps (branch b index sense target ops) := by
  refine (labelOf_keeps _ _ _).bind fun l _ => useOperand_keeps 0 fun rc _ => syncAll_keeps.seq ?_
  refine .seq (.emit (.test ..) fun _ => trivial) ?_
  exact .seq (.jcc _ l) <| finishUses_keeps ops

theorem tableEntries_keeps {r : Reg} (hr : G.sure → r.Free) (i : Nat)
    (targets : List (Option Handle)) : G.Keeps (tableEntries b index r i targets) := by
  induction targets generalizing i with
  | nil => exact .done
  | cons t targets ih =>
    refine (labelOf_keeps _ _ _).bind fun l _ => .seq (.emit (.aluImm ..) hr) ?_
    exact .seq (.jcc _ l) <| ih (i + 1)

theorem jumpTable_keeps (payload : Payload) (ops : List Handle) :
    G.Keeps (jumpTable b index payload ops) := by
  unfold jumpTable
  split
  · refine useOperand_keeps 0 fun r hr => ?_
    refine syncAll_keeps.seq <| (tableEntries_keeps b index hr 0 _).seq ?_
    refine .seq (.emit .ud2 fun _ => trivial) ?_
    exact (finishUses_keeps ops).seq clearAll_keeps
  · exact .fail _

end

theorem moveResult_keeps (t : ValTy) (r : Reg) : G.Keeps (moveResult t r) := by
  cases t with
  | int w => exact .emit (.mov ..) fun _ => rax_free
  | float s =>
    unfold moveResult
    dsimp only
    split
    · exact .done
    · exact .emit (.movaps ..) fun _ => trivial

theorem ret_keeps (t : ValTy) (ops : List Handle) : G.Keeps (ret t ops) := by
  refine useOperand_keeps 0 fun r _ => ?_
  refine syncAll_keeps.seq <| (moveResult_keeps t r).seq ?_
  refine (finishUses_keeps ops).seq <| .seq (.jmp _) clearAll_keeps

/-- The code of an exit, which yields its label. -/
def exitStub (g : Guard) : Gen Nat := do
  syncAll
  let stub ← emit Emitter.newLabel
  emit (Emitter.bind stub)
  emit (Emitter.movImm64 .rax g.record)
  emit (Emitter.jmp epilogueLabel)
  return stub

theorem guardExit_eq (g : Guard) : guardExit (.guard g) = (do
    let stub ← exitStub g
    modify fun s => { s with exits := s.exits.push (g, stub) }
    clearAll) := by
  simp only [guardExit, exitStub, bind_assoc, pure_bind]

theorem exitStub_keeps (g : Guard) : G.Keeps (exitStub g) := by
  refine syncAll_keeps.seq <| .bind .newLabel fun stub _ => ?_
  refine .seq (.bindLabel stub) <| .bind (.emit (.movImm64 ..) fun _ => rax_free) ?_
  exact fun _ _ => .seq (.jmp _) <| .pure fun _ => trivial

/-- An exit is the only step that adds to the exits. -/
theorem guardExit_keeps (hs : G.sure) (payload : Payload) : G.Keeps (guardExit payload) := by
  refine ⟨fun hn => absurd hs hn, fun _ => ?_⟩
  cases payload with
  | guard g =>
    rw [guardExit_eq]
    refine ((exitStub_keeps g).tidy hs).bind fun stub _ => ?_
    refine .seq (Step.keeps_modify fun _ h => ?_) <| clearAll_keeps.tidy hs
    exact ⟨h.code, h.allocatable, h.values⟩
  | _ => exact Step.keeps_pure trivial

end Control

/-! ### Bodies -/

section Body

variable {b : Buffer} {l : Liveness} {k : Nat} {i : Instr}

/-- The homes of computed values may be written. -/
theorem Homed.writable_eq {info : Infos} (hh : Homed b l info) {v : Nat}
    {j : ValueInfo} (hj : info v = some j) {ins : Instr} (hins : b.instrs[v]? = some ins) :
    j.writable = ins.isComputed := by
  obtain ⟨ins', hins', hres, hlive⟩ := hh.only v j hj
  rw [hins] at hins'
  cases hins'
  obtain ⟨j', hj', -, hw⟩ := hh.value v ins j.ty hins hres hlive
  rw [hj] at hj'
  cases hj'
  exact hw

/-- The ground is that of an instruction of a checked function. -/
structure Ground.Holds (G : Ground) (b : Buffer) (l : Liveness) (k : Nat) (i : Instr) : Prop where
  valid : b.Validated
  homed : Homed b l G.info
  instr : b.instrs[k]? = some i
  room : b.argBytes i ≤ G.room

namespace Ground.Holds

/-- A computed value may be written home. -/
theorem writable (h : G.Holds b l k i) (hc : i.isComputed = true) (j : ValueInfo)
    (hj : G.info k = some j) : j.writable = true :=
  (h.homed.writable_eq hj h.instr).trans hc

/-- The value of an instruction that is not a constant, an area or a parameter is computed. -/
theorem computed (h : G.Holds b l k i)
    (hkind : i.opcode.payloadKind = .none ∨ i.opcode.payloadKind = .disp) (j : ValueInfo)
    (hj : G.info k = some j) : j.writable = true := by
  rw [← (h.valid.fits h.instr).kind] at hkind
  refine h.writable (i.isComputed_iff.mpr ?_) j hj
  rcases hkind with hkind | hkind <;> rw [hkind] <;> decide

theorem arguments (h : G.Holds b l k i) {site : CallSite} (hsite : i.payload = .call site) :
    (Assigner.fresh.arguments (site.args.map b.typeOf)).2.stack ≤ G.room := by
  have hroom := h.room
  rw [Buffer.argBytes, hsite] at hroom
  dsimp only at hroom
  rw [← b.stackSize_eq site, Assigner.stackSize] at hroom
  omega

theorem typeOf_eq (h : G.Holds b l k i) {a : Handle} {j : ValueInfo}
    (hj : G.info a.index = some j) : b.typeOf a = .val j.ty := by
  obtain ⟨ins, hins, hres, -⟩ := h.homed.only _ j hj
  rw [Buffer.typeOf, Buffer.resultAt, hins, ← hres]
  rfl

end Ground.Holds

/-- The code for one instruction. -/
theorem instruction_keeps (hexit : i.opcode = .exit → G.sure) (h : G.sure → G.Holds b l k i) :
    G.Keeps (instruction b k i) := by
  have hv : ∀ o, i.opcode = o → o.payloadKind = .none ∨ o.payloadKind = .disp →
      G.sure → ∀ j, G.info k = some j → j.writable = true :=
    fun o ho hkind hs => (h hs).computed (ho ▸ hkind)
  unfold instruction
  cases hop : i.opcode with
  | start | param | comment | alloc | imm => exact .done
  | live => exact finishUses_keeps _
  | label => exact label_keeps b k
  | exit => exact guardExit_keeps (hexit hop) _
  | store kind => exact store_keeps kind _
  | jump => exact jump_keeps b k _
  | branch sense => exact branch_keeps b k sense _ _
  | jumpTable => exact jumpTable_keeps b k _ _
  | ret t => exact ret_keeps t _
  | call result =>
    dsimp only
    split
    · rename_i site hsite
      refine call_keeps result (fun hs => (h hs).writable ?_) (fun hs _ _ _ => (h hs).typeOf_eq)
        fun hs => (h hs).arguments hsite
      rw [Instr.isComputed, hsite]
    · exact .fail _
  | load kind => exact loadValue_keeps (hv _ hop (.inr rfl)) kind _
  | arith w op => exact arith_keeps (hv _ hop (.inl rfl)) op w
  | shift w op => exact shift_keeps (hv _ hop (.inl rfl)) op w
  | unary w op => exact unary_keeps (hv _ hop (.inl rfl)) op w
  | floatArith s op => exact floatArith_keeps (hv _ hop (.inl rfl)) op s
  | floatNeg s => exact floatNeg_keeps (hv _ hop (.inl rfl)) s
  | compare w rel => exact compare_keeps (hv _ hop (.inl rfl)) rel w
  | floatCompare s rel => exact floatCompare_keeps (hv _ hop (.inl rfl)) rel s
  | convert c => exact convert_keeps (hv _ hop (.inl rfl)) c
  | select t => exact select_keeps (hv _ hop (.inl rfl)) t

/-- The code for all needed instructions. -/
theorem body_keeps {info : Infos} {room start : Nat} (hb : b.Validated)
    (hh : Homed b l info)
    (hroom : ∀ k i, b.instrs[k]? = some i → l.isLive k = true → b.argBytes i ≤ room) :
    (body b l).Keeps (Tidy info room start) := by
  refine .forM fun k _ => ?_
  split
  · rename_i hlive
    refine (Step.keeps_liftFault _).bind fun i hget => ?_
    have hi : b.instrs[k]? = some i := by
      unfold Buffer.instrAt at hget
      split at hget
      · rename_i heq; cases hget; exact heq
      · cases hget
    have hcode : (⟨True, info, room, start⟩ : Ground).Keeps (instruction b k i) :=
      instruction_keeps (fun _ => trivial) fun _ => ⟨hb, hh, hi, hroom k i hi hlive⟩
    refine (hcode.tidy trivial).seq <| Step.keeps_modify fun _ h => ?_
    exact ⟨h.code, h.allocatable, h.values⟩
  · exact Step.keeps_pure trivial

end Body

end Gen

end JitBackend
