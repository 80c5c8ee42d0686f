import JitBackend.Proofs.Agreement
import JitBackend.Proofs.Homes

namespace JitBackend

/-!
# Runs of checked code

In code that passed the checks, where every value is there whenever it is used, an instruction
always finds operands of the right types. So no instruction is stuck, and what each kind of
instruction does to the state of a run can be said once.

* `Interp.Steady` — the values of a run have their types and are there where they are used;
* `Interp.Steady.load`, `Interp.Steady.call` and so on — what an instruction of each kind does;
* `Interp.Steady.next` — values have their types and are there after every instruction.
-/

theorem Opcode.fallsThrough_of_result {op : Opcode} {t : ValTy} (h : op.result = .val t) :
    op.fallsThrough = true := by
  cases op with
  | jump | jumpTable | ret | exit => cases h
  | _ => rfl

theorem Instr.mem_targets {i : Instr} (h : i.payload.kind = .target) : i.target? ∈ i.targets := by
  obtain ⟨t, ht⟩ := Payload.exists_of_kind h
  simp only [Instr.target?, Instr.targets, ht, List.mem_singleton]

namespace Interp

variable {M : Type} {w : World M} {b : Buffer} {there : Nat → Nat → Prop} {s s' : State M}
  {i : Instr}

/-! ### Values are there -/

/-- These are the values of the operands. -/
def Reads (env : Nat → Option Const) (ops : List Handle) (args : List Const) : Prop :=
  List.Forall₂ (fun x c => env x.index = some c) ops args

/-- What holds of the values in every state of a run. -/
structure Steady (b : Buffer) (there : Nat → Nat → Prop) (s : State M) : Prop where
  typed : ∀ v c, s.env v = some c → b.resultAt v = some (.val c.ty)
  valued : Valued b s.env (there · s.pc)
  consts : ∀ v i c d, b.instrs[v]? = some i → i.constant? = some c → s.env v = some d → d = c

theorem Steady.initial (m : M) : Steady b b.Precedes (State.initial m) where
  typed _ _ h := nomatch h
  valued _ h := nomatch h [] .start
  consts _ _ _ _ _ _ h := nomatch h

/-- An instruction adds events, and sets no value but its own. -/
structure Moves (b : Buffer) (there : Nat → Nat → Prop) (s s' : State M) : Prop where
  steady : Steady b there s'
  trace : s.trace <+: s'.trace
  env : ∀ v, v ≠ s.pc → s'.env v = s.env v

/-- After an instruction without a result. -/
theorem Steady.keep (hdef : b.Supplies there) (h : Steady b there s)
    (hi : b.instrs[s.pc]? = some i) (hres : i.result = .void)
    (hnext : s'.pc ∈ b.successors s.pc) (henv : s'.env = s.env) (htrace : s.trace <+: s'.trace) :
    Moves b there s s' := by
  refine ⟨⟨henv ▸ h.typed, fun n hn t ht => ?_, henv ▸ h.consts⟩, htrace, fun v _ => by rw [henv]⟩
  rw [henv]
  -- what is there at the next position is this instruction, or was there
  rcases hdef.kept hn hnext with hn | rfl
  · exact h.valued n hn t ht
  · rw [Buffer.resultAt, hi, Option.map_some, hres] at ht
    cases ht

/-- After an instruction with a result. -/
theorem Steady.set (hdef : b.Supplies there) (h : Steady b there s) {v : Const}
    (hi : b.instrs[s.pc]? = some i) (hres : i.result = .val v.ty)
    (hconst : ∀ c, i.constant? = some c → v = c)
    (hpc : s'.pc = s.pc + 1) (henv : s'.env = Function.update s.env s.pc (some v))
    (htrace : s.trace <+: s'.trace) : Moves b there s s' := by
  have hresult : b.resultAt s.pc = some (.val v.ty) := by
    rw [Buffer.resultAt, hi, Option.map_some, hres]
  have hnext : s'.pc ∈ b.successors s.pc :=
    hpc ▸ Buffer.next_mem_successors hi (Opcode.fallsThrough_of_result hres)
  refine ⟨⟨fun n c hc => ?_, fun n hn t ht => ?_, fun n j c d hj hc hd => ?_⟩, htrace,
    fun n hn => by rw [henv, Function.update_of_ne hn]⟩
  · rw [henv, Function.update_apply] at hc
    split at hc
    · rename_i heq
      cases hc
      exact heq ▸ hresult
    · exact h.typed n c hc
  · by_cases hne : n = s.pc
    · subst hne
      rw [henv, Function.update_self]
      rw [hresult] at ht
      cases ht
      exact ⟨v, rfl, rfl⟩
    · rw [henv, Function.update_of_ne hne]
      exact h.valued n ((hdef.kept hn hnext).resolve_right hne) t ht
  · rw [henv, Function.update_apply] at hd
    split at hd
    · rename_i heq
      subst heq
      cases hd
      rw [hi] at hj
      cases hj
      exact hconst c hc
    · exact h.consts n j c d hj hc hd

theorem typeOf_of_refers {k : Nat} {xs : List Handle} {ts : List ValTy}
    (h : List.Forall₂ (fun x t => b.Refers k x (.val t)) xs ts) :
    xs.map b.typeOf = ts.map Ty.val := by
  induction h with
  | nil => rfl
  | cons hr _ ih =>
    rw [List.map_cons, List.map_cons, ih, Buffer.typeOf, hr.result]
    rfl

section Instruction

variable (hb : b.Validated) (hdef : b.Supplies there) (h : Steady b there s)
  (hi : b.instrs[s.pc]? = some i) {t : ValTy}

include hdef h hi

/-- What the instruction at hand reads. -/
theorem Steady.operand {x : Handle} (hx : x ∈ i.operandList ++ i.callArgs)
    (hr : b.Refers s.pc x (.val t)) :
    ∃ v, s.env x.index = some v ∧ v.ty = t ∧ operand? b s.env x = some v := by
  obtain ⟨v, hv, ht⟩ := h.valued x.index (hdef.read s.pc i hi x hx) t hr.result
  obtain ⟨j, hj⟩ := hr.get?
  refine ⟨v, hv, ht, ?_⟩
  -- a constant is read off its instruction, whatever was set
  rw [operand?_of_get? hj, hv]
  cases hc : j.constant? with
  | none => rfl
  | some c => rw [h.consts _ j c v (Buffer.get?_eq_some hj).2 hc hv, Option.some_or]

theorem Steady.values {xs : List Handle} {ts : List ValTy}
    (hsub : ∀ x ∈ xs, x ∈ i.operandList ++ i.callArgs)
    (hrefs : List.Forall₂ (fun x t => b.Refers s.pc x (.val t)) xs ts) :
    ∃ args, Reads s.env xs args ∧ args.map Const.ty = ts ∧
      xs.mapM (operand? b s.env) = some args := by
  induction hrefs with
  | nil => exact ⟨[], .nil, rfl, rfl⟩
  | cons hr _ ih =>
    obtain ⟨v, hv, rfl, hop⟩ := h.operand hdef hi (hsub _ (by simp)) hr
    obtain ⟨args, henv, rfl, hargs⟩ := ih fun x hx => hsub x (by simp [hx])
    exact ⟨v :: args, .cons hv henv, rfl, by simp [List.mapM_cons, hop, hargs]⟩

include hb

/-- The operands of the instruction at hand. -/
theorem Steady.operands : ∃ args, Reads s.env i.operandList args ∧
    args.map Const.ty = i.opcode.operands ∧ step w b s = stepInstr w b s i args := by
  obtain ⟨args, henv, htys, hargs⟩ := h.values hdef hi (fun x hx => List.mem_append_left _ hx)
    (hb.fits hi).operands
  refine ⟨args, henv, htys, ?_⟩
  rw [step, hi]
  dsimp only
  rw [operands?, hargs]

theorem Steady.step_eq {x : Next M} (hx : ∀ args, stepInstr w b s i args = x) : step w b s = x := by
  obtain ⟨args, -, -, hstep⟩ := h.operands hb hdef hi (w := w)
  exact hstep.trans (hx args)

/-! ### What instructions do -/

/-- Instructions that do nothing. -/
theorem Steady.skip (hop : i.opcode = .start ∨ i.opcode = .comment ∨ ∃ t, i.opcode = .live t) :
    step w b s = .go s.advance := by
  refine h.step_eq hb hdef hi fun args => ?_
  rcases hop with hop | hop | ⟨t, hop⟩ <;> simp only [stepInstr, hop]

theorem Steady.label (hop : i.opcode = .label) : step w b s = .go (s.note .label).advance :=
  h.step_eq hb hdef hi fun args => by simp only [stepInstr, hop]

/-- Parameters, stack areas and constants. -/
theorem Steady.param {p : BitVec 8} (hop : i.opcode = .param) (hpay : i.payload = .param p) :
    step w b s = finishWith s (.int64 (w.param p.toNat)) :=
  h.step_eq hb hdef hi fun args => by simp only [stepInstr, hop, hpay]

theorem Steady.alloc (hop : i.opcode = .alloc) :
    step w b s = finishWith s (.int64 (w.area (areaNumber b s.pc))) :=
  h.step_eq hb hdef hi fun args => by simp only [stepInstr, hop]

theorem Steady.const {c : Const} (hc : i.constant? = some c) : step w b s = finishWith s c := by
  obtain ⟨⟨t, hop⟩, hpay⟩ := Instr.constant?_eq_some hc
  exact h.step_eq hb hdef hi fun args => by simp only [stepInstr, hop, hpay]

/-- An operation without effects yields a value of its type, unless it traps. -/
theorem Steady.value (hpure : i.opcode.effect = .pure) (himm : i.opcode.isImmediate = false) :
    (∃ args v, Reads s.env i.operandList args ∧ pureValue w.float i.opcode args = some v ∧
      i.result = .val v.ty ∧ step w b s = finishWith s v) ∨ step w b s = .halt .trap := by
  obtain ⟨args, henv, htys, hstep⟩ := h.operands hb hdef hi (w := w)
  rw [hstep, stepInstr_pure (beq_iff_eq.mpr hpure) himm, stepPure]
  rcases pureValue_total w.float hpure himm htys with ⟨v, hv, ht⟩ | ⟨-, hnone, hdiv⟩
  · rw [hv]
    exact .inl ⟨args, v, henv, hv, ht, rfl⟩
  · rw [hnone]
    exact .inr (if_pos hdiv)

theorem Steady.load {k : LoadKind} (hop : i.opcode = .load k) :
    ∃ base, Reads s.env i.operandList [.int64 base] ∧
      step w b s = stepLoad w s k i.displacement [.int64 base] := by
  obtain ⟨args, henv, htys, hstep⟩ := h.operands hb hdef hi (w := w)
  rw [hop] at htys
  obtain ⟨c, rfl, hc⟩ := args_one htys
  obtain ⟨base, rfl⟩ : ∃ base, c = .int64 base := Const.exists_ofInt hc
  exact ⟨base, henv, by simp only [hstep, stepInstr, hop]⟩

theorem Steady.store {k : StoreKind} (hop : i.opcode = .store k) :
    ∃ v base, Reads s.env i.operandList [v, .int64 base] ∧
      step w b s = stepStore w s k i.displacement [v, .int64 base] := by
  obtain ⟨args, henv, htys, hstep⟩ := h.operands hb hdef hi (w := w)
  rw [hop] at htys
  obtain ⟨v, c, rfl, -, hc⟩ := args_two htys
  obtain ⟨base, rfl⟩ : ∃ base, c = .int64 base := Const.exists_ofInt hc
  exact ⟨v, base, henv, by simp only [hstep, stepInstr, hop]⟩

theorem Steady.call (hargs : b.ArgsAreValues) {t : Ty} {site : CallSite} (hop : i.opcode = .call t)
    (hpay : i.payload = .call site) : ∃ args, Reads s.env site.args args ∧
      (args.map fun c => Ty.val c.ty) = site.args.map b.typeOf ∧
      step w b s = stepCall w s t site.callee args := by
  obtain ⟨_, -, -, hstep⟩ := h.operands hb hdef hi (w := w)
  have hcall : i.callArgs = site.args := by simp only [Instr.callArgs, hpay]
  obtain ⟨ts, hts⟩ := hb.argTypes hargs hi
  obtain ⟨args, henv, htys, hvals⟩ := h.values hdef hi
    (fun x hx => List.mem_append_right _ hx) hts
  rw [hcall] at hts henv hvals
  refine ⟨args, henv, ?_, ?_⟩
  · rw [typeOf_of_refers hts, ← htys, List.map_map]
    rfl
  · rw [hstep, stepInstr_call hop hpay, hvals]
    rfl

theorem Steady.jump (hop : i.opcode = .jump) :
    step w b s = goto b (s.note .jump) i.target? :=
  h.step_eq hb hdef hi fun args => by simp only [stepInstr, hop]

/-- An instruction with a number as its operand. -/
theorem Steady.number (hop : i.opcode.operands = [.int32]) : ∃ n,
    Reads s.env i.operandList [.int32 n] ∧ step w b s = stepInstr w b s i [.int32 n] := by
  obtain ⟨args, henv, htys, hstep⟩ := h.operands hb hdef hi (w := w)
  rw [hop] at htys
  obtain ⟨c, rfl, hc⟩ := args_one htys
  obtain ⟨n, rfl⟩ : ∃ n, c = .int32 n := Const.exists_ofInt hc
  exact ⟨n, henv, hstep⟩

theorem Steady.branch {sense : Bool} (hop : i.opcode = .branch sense) : ∃ n,
    Reads s.env i.operandList [.int32 n] ∧
      step w b s = stepBranch b s sense i.target? [.int32 n] := by
  obtain ⟨n, henv, hstep⟩ := h.number hb hdef hi (w := w) (by rw [hop]; rfl)
  exact ⟨n, henv, by simp only [hstep, stepInstr, hop]⟩

theorem Steady.table {cells : Array Cell} (hop : i.opcode = .jumpTable)
    (hpay : i.payload = .table cells) : ∃ n, Reads s.env i.operandList [.int32 n] ∧
      step w b s = stepTable b s (Cell.labels cells) [.int32 n] := by
  obtain ⟨n, henv, hstep⟩ := h.number hb hdef hi (w := w) (by rw [hop]; rfl)
  exact ⟨n, henv, by simp only [hstep, stepInstr, hop, hpay]⟩

theorem Steady.ret (hop : i.opcode = .ret t) : ∃ c, Reads s.env i.operandList [c] ∧ c.ty = t ∧
    step w b s = .halt (.ret c) := by
  obtain ⟨args, henv, htys, hstep⟩ := h.operands hb hdef hi (w := w)
  rw [hop] at htys
  obtain ⟨c, rfl, hc⟩ := args_one htys
  exact ⟨c, henv, hc, by simp only [hstep, stepInstr, hop]⟩

theorem Steady.exit {g : Guard} (hop : i.opcode = .exit) (hpay : i.payload = .guard g) :
    step w b s = .halt (.exit g) :=
  h.step_eq hb hdef hi fun args => by simp only [stepInstr, hop, hpay]

end Instruction

/-- Jumps go to labels of the buffer. -/
theorem goto_of_isLabel {x : Handle} (hown : x.buffer = b.id) (hx : b.IsLabel x.index) :
    goto b s (some x) = .go { s with pc := x.index } := by
  have hget : (b.get? x).map Instr.opcode = some .label := by
    rw [Buffer.get?, if_pos hown]
    exact hx
  unfold goto
  simp only [hget, if_true]

theorem eq_of_goto {t : Option Handle} (h : goto b s t = .go s') :
    b.IsTarget t ∧ ∃ x, t = some x ∧ s' = { s with pc := x.index } := by
  unfold goto at h
  split at h
  · rename_i x
    split at h
    · rename_i hlabel
      cases h
      obtain ⟨j, hj, hop⟩ := Option.map_eq_some_iff.mp hlabel
      obtain ⟨hown, hat⟩ := Buffer.get?_eq_some hj
      exact ⟨⟨x, rfl, hown, (Buffer.isLabel_iff hat).mpr hop⟩, x, rfl, rfl⟩
    · cases h
  · cases h

/-- After a jump. -/
theorem Steady.land (hdef : b.Supplies there) (h : Steady b there s) {t : Option Handle} {e : Event}
    (hi : b.instrs[s.pc]? = some i) (hres : i.result = .void) (ht : t ∈ i.targets)
    (hgo : goto b (s.note e) t = .go s') : Moves b there s s' := by
  obtain ⟨⟨x, rfl, hown, hlabel⟩, y, hy, rfl⟩ := eq_of_goto hgo
  cases hy
  exact h.keep hdef hi hres (Buffer.landing_mem_successors hi ht hown hlabel) rfl
    (List.prefix_append _ _)

/-! ### All steps -/

variable (hb : b.Validated) (hargs : b.ArgsAreValues) (hdef : b.Supplies there)
  (h : Steady b there s)

section

variable (hi : b.instrs[s.pc]? = some i)

include hdef h hi

/-- After an instruction without a result that goes on to the next one. -/
theorem Steady.pass (hop : i.opcode.result = .void ∧ i.opcode.fallsThrough = true)
    (hpc : s'.pc = s.pc + 1) (henv : s'.env = s.env) (htrace : s.trace <+: s'.trace) :
    Moves b there s s' :=
  h.keep hdef hi hop.1 (hpc ▸ Buffer.next_mem_successors hi hop.2) henv htrace

/-- After an instruction with a result that is not a constant. -/
theorem Steady.yield {v : Const} (hres : i.result = .val v.ty)
    (himm : i.opcode.isImmediate = false) (hpc : s'.pc = s.pc + 1)
    (henv : s'.env = Function.update s.env s.pc (some v)) (htrace : s.trace <+: s'.trace) :
    Moves b there s s' := by
  refine h.set hdef hi hres (fun c hc => ?_) hpc henv htrace
  rw [Instr.constant?_eq_none himm] at hc
  cases hc

include hb

theorem Steady.next_pure (hpure : i.opcode.effect = .pure) (hstep : step w b s = .go s') :
    Moves b there s s' := by
  cases himm : i.opcode.isImmediate with
  | true =>
    obtain ⟨c, hc⟩ := (hb.fits hi).constant? himm
    rw [h.const hb hdef hi hc] at hstep
    cases hstep
    refine h.set hdef hi ((hb.fits hi).const c (Instr.constant?_eq_some hc).2) ?_ rfl rfl
      (List.prefix_refl _)
    exact fun d hd => Option.some.inj (hc.symm.trans hd)
  | false =>
    rcases h.value hb hdef hi hpure himm (w := w) with ⟨args, v, -, -, hv, hgo⟩ | htrap
    · rw [hgo] at hstep
      cases hstep
      exact h.yield hdef hi hv himm rfl rfl (List.prefix_refl _)
    · rw [htrap] at hstep
      cases hstep

theorem Steady.next_call (hargs : b.ArgsAreValues) {t : Ty} (hop : i.opcode = .call t)
    (hstep : step w b s = .go s') : Moves b there s s' := by
  have hkind := (hb.fits hi).kind
  rw [hop] at hkind
  obtain ⟨site, hp⟩ := Payload.exists_of_kind hkind
  obtain ⟨args, -, -, hgo⟩ := h.call hb hdef hi hargs hop hp (w := w)
  rw [hgo] at hstep
  cases t with
  | void =>
    cases hstep
    exact h.pass hdef hi (by rw [hop]; exact ⟨rfl, rfl⟩) rfl rfl (List.prefix_append _ _)
  | val t =>
    cases hstep
    refine h.yield hdef hi ?_ (by rw [hop]; rfl) rfl rfl (List.prefix_append _ _)
    rw [Instr.result, hop, Const.ty_ofBits]
    rfl

theorem Steady.next_branch {sense : Bool} (hop : i.opcode = .branch sense)
    (hstep : step w b s = .go s') : Moves b there s s' := by
  have hkind := (hb.fits hi).kind
  rw [hop] at hkind
  obtain ⟨n, -, hgo⟩ := h.branch hb hdef hi hop (w := w)
  rw [hgo, stepBranch] at hstep
  split at hstep
  · exact h.land hdef hi (by rw [Instr.result, hop]; rfl) (Instr.mem_targets hkind) hstep
  · cases hstep
    exact h.pass hdef hi (by rw [hop]; exact ⟨rfl, rfl⟩) rfl rfl (List.prefix_append _ _)

theorem Steady.next_table (hop : i.opcode = .jumpTable) (hstep : step w b s = .go s') :
    Moves b there s s' := by
  have hkind := (hb.fits hi).kind
  rw [hop] at hkind
  obtain ⟨cells, hp⟩ := Payload.exists_of_kind hkind
  obtain ⟨n, -, hgo⟩ := h.table hb hdef hi hop hp (w := w)
  rw [hgo, stepTable] at hstep
  split at hstep
  · rename_i t ht
    refine h.land hdef hi (by rw [Instr.result, hop]; rfl) ?_ hstep
    simp only [Instr.targets, hp]
    exact Array.mem_toList_iff.mpr (Array.mem_of_getElem? ht)
  · cases hstep

end

include hb hargs hdef h

/-- Values have their types and are there after every instruction, and events are only added. -/
theorem Steady.next (hstep : step w b s = .go s') : Moves b there s s' := by
  obtain ⟨i, hi⟩ : ∃ i, b.instrs[s.pc]? = some i := by
    cases hi : b.instrs[s.pc]? with
    | some i => exact ⟨i, rfl⟩
    | none => rw [step, hi] at hstep; cases hstep
  have hkind := (hb.fits hi).kind
  by_cases hpure : i.opcode.effect = .pure
  · exact h.next_pure hb hdef hi hpure hstep
  cases hop : i.opcode with
  | start | comment | live =>
    rw [h.skip hb hdef hi (by simp [hop])] at hstep
    cases hstep
    exact h.pass hdef hi (by rw [hop]; exact ⟨rfl, rfl⟩) rfl rfl (List.prefix_refl _)
  | label =>
    rw [h.label hb hdef hi hop] at hstep
    cases hstep
    exact h.pass hdef hi (by rw [hop]; exact ⟨rfl, rfl⟩) rfl rfl (List.prefix_append _ _)
  | param =>
    rw [hop] at hkind
    obtain ⟨p, hp⟩ := Payload.exists_of_kind hkind
    rw [h.param hb hdef hi hop hp] at hstep
    cases hstep
    exact h.yield hdef hi (by rw [Instr.result, hop]; rfl) (by rw [hop]; rfl) rfl rfl
      (List.prefix_refl _)
  | alloc =>
    rw [h.alloc hb hdef hi hop] at hstep
    cases hstep
    exact h.yield hdef hi (by rw [Instr.result, hop]; rfl) (by rw [hop]; rfl) rfl rfl
      (List.prefix_refl _)
  | load k =>
    obtain ⟨base, -, hgo⟩ := h.load hb hdef hi hop (w := w)
    rw [hgo] at hstep
    cases hstep
    refine h.yield hdef hi ?_ (by rw [hop]; rfl) rfl rfl (List.prefix_append _ _)
    rw [Instr.result, hop, Const.ty_ofBits]
    rfl
  | store k =>
    obtain ⟨v, base, -, hgo⟩ := h.store hb hdef hi hop (w := w)
    rw [hgo] at hstep
    cases hstep
    exact h.pass hdef hi (by rw [hop]; exact ⟨rfl, rfl⟩) rfl rfl (List.prefix_append _ _)
  | call t => exact h.next_call hb hdef hi hargs hop hstep
  | jump =>
    rw [hop] at hkind
    rw [h.jump hb hdef hi hop] at hstep
    exact h.land hdef hi (by rw [Instr.result, hop]; rfl) (Instr.mem_targets hkind) hstep
  | branch sense => exact h.next_branch hb hdef hi hop hstep
  | jumpTable => exact h.next_table hb hdef hi hop hstep
  | ret t =>
    obtain ⟨c, -, -, hgo⟩ := h.ret hb hdef hi hop (w := w)
    rw [hgo] at hstep
    cases hstep
  | exit =>
    rw [hop] at hkind
    obtain ⟨g, hp⟩ := Payload.exists_of_kind hkind
    rw [h.exit hb hdef hi hop hp] at hstep
    cases hstep
  | _ => rw [hop] at hpure; exact absurd rfl hpure

/-- In a run, events are only added. -/
theorem Steady.run_trace (n : Nat) : s.trace <+: (run w b n s).1.trace := by
  induction n generalizing s with
  | zero => exact List.prefix_refl _
  | succ n ih =>
    cases hstep : step w b s with
    | halt o =>
      rewrite [run_halt hstep]
      exact List.prefix_refl _
    | go s' =>
      have hmoves := h.next hb hargs hdef hstep
      rw [run, hstep]
      exact hmoves.trace.trans (ih hmoves.steady)

end Interp

end JitBackend
