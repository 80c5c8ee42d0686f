import JitBackend.Proofs.Rendering

namespace JitBackend

/-!
# Rewrites under an assignment

A buffer can be read as a system of equations: every instruction has some value of its type, and
an integer operation has the value that it computes from the values of its operands. No run is
needed for that. Calls, loads and float operations may have any values, and so may divisions
without a quotient. Whatever the simplifier puts in place of an integer instruction has its value
under every solution.

* `Opcode.isInteger` — the operations on integers, without effects and without floats;
* `Interp.Solves` — an assignment of values satisfies the equations of a buffer;
* `Plan.Exact` — what a plan comes to under an assignment;
* `Instr.simplify_exact` — the plans for integer instructions are exact, others are left alone.
-/

/-- The operation has no effects and reads and produces integers only. -/
def Opcode.isInteger (op : Opcode) : Bool :=
  op.isShareable && op.result.isInt && op.operands.all fun t => !t.isFloat

variable {k : Nat} {h x : Handle}

/-- The instruction that a handle refers to. -/
theorem Buffer.Refers.instr {b : Buffer} {t : Ty} (hr : b.Refers k h t) :
    ∃ i, b.get? h = some i ∧ b.instrs[h.index]? = some i ∧ i.result = t := by
  obtain ⟨i, hi, hres⟩ := Option.map_eq_some_iff.mp hr.result
  exact ⟨i, get?_of_instrs hr.own hi, hi, hres⟩

namespace Interp

variable {f : FloatModel} {b : Buffer} {i : Instr} {σ : Nat → Const}

/-- Value of an instruction when the instructions of the buffer have the values `σ`, `none` where
    it is not defined. -/
def valueUnder (f : FloatModel) (b : Buffer) (σ : Nat → Const) (i : Instr) : Option Const :=
  meaning f b (fun n => some (σ n)) i

/-- The assignment gives every instruction a value of its type, and to every integer operation the
    value that it computes, if there is one. -/
structure Solves (f : FloatModel) (b : Buffer) (σ : Nat → Const) : Prop where
  typed : ∀ (n : Nat) (i : Instr) (t : ValTy), b.instrs[n]? = some i → i.result = .val t →
    (σ n).ty = t
  equation : ∀ (n : Nat) (i : Instr) (v : Const), b.instrs[n]? = some i →
    i.opcode.isInteger = true → valueUnder f b σ i = some v → σ n = v

/-- An operation that is not a division has a value. -/
theorem Ready.exists_meaning {env : Nat → Option Const} (h : Ready b env i)
    (hpure : i.isPure = true) (himm : i.opcode.isImmediate = false)
    (htrap : i.opcode.canTrap = false) : ∃ v, meaning f b env i = some v := by
  obtain ⟨args, hargs, hty⟩ := h.operands?
  rw [meaning_of_not_immediate himm, hargs, Option.bind_some]
  rcases pureValue_total f (eq_of_beq hpure) himm hty with ⟨v, hv, -⟩ | ⟨htrap', -⟩
  · exact ⟨v, hv⟩
  · rw [htrap] at htrap'
    cases htrap'

namespace Solves

/-- The operand of an integer type has the value of its instruction, also where it is a
    constant. -/
theorem operand? (hσ : Solves f b σ) {t : ValTy} (hh : b.Refers k h (.val t))
    (ht : t.isFloat = false) : Interp.operand? b (fun n => some (σ n)) h = some (σ h.index) := by
  obtain ⟨i, hi, hat, hres⟩ := hh.instr
  rw [operand?_of_get? hi]
  cases hconst : i.constant? with
  | none => rfl
  | some c =>
    -- the equation of a constant says that it has its own value
    obtain ⟨⟨s, hop⟩, -⟩ := Instr.constant?_eq_some hconst
    have hint : i.opcode.isInteger = true := by
      rw [Instr.result, hop] at hres
      cases hres
      rw [hop]
      simp [Opcode.isInteger, Opcode.isShareable, Opcode.effect, Opcode.result, Ty.isInt,
        Opcode.operands, ht]
    rw [Option.some_or, hσ.equation _ i c hat hint (meaning_of_constant? hconst)]

/-- All operands of an instruction that fits have values of the right types. -/
theorem ready (hσ : Solves f b σ) (hb : b.Validated) (hfit : i.Fits b k) :
    Ready b (fun n => some (σ n)) i := by
  refine hfit.operands.imp fun h t hh => ?_
  obtain ⟨j, hj, hat, hres⟩ := hh.instr
  rw [operand?_of_get? hj]
  cases hconst : j.constant? with
  | none => exact ⟨_, rfl, hσ.typed _ j t hat hres⟩
  | some c =>
    obtain ⟨-, hpay⟩ := Instr.constant?_eq_some hconst
    refine ⟨c, rfl, ?_⟩
    have := (hb.fits hat).const c hpay
    rw [hres] at this
    exact (Ty.val.inj this).symm

end Solves

end Interp

/-! ### Rewrites -/

namespace Simplify

variable {f : FloatModel} {b : Buffer} {i j : Instr} {p : Plan} {σ : Nat → Const} {op : Opcode}

open Interp

theorem isInteger_of_undoes {inner : Opcode} (h : undoes op inner = true) :
    inner.isInteger = true ∧ inner.canTrap = false := by
  unfold undoes at h
  split at h <;> first | exact ⟨rfl, rfl⟩ | cases h

/-- What an identity hands on in place of an operation. -/
theorem Identity.replaced {y : Handle} {u v : Option (BitVec 64)}
    (h : Identity x y u v op (.replace j)) :
    (∃ c, j = .const c) ∨ ∃ w z, j = .plain (.unary w .neg) [z] := by
  cases h with
  | fold | cancel | reflexive | remOne => exact .inl ⟨_, rfl⟩
  | negate => exact .inr ⟨_, _, rfl⟩

theorem Identity.ne_keep {y : Handle} {u v : Option (BitVec 64)} (h : Identity x y u v op p)
    (j : Instr) : p ≠ .keep j := by
  cases h <;> exact nofun

/-- Instructions are replaced by constants and by negations. -/
theorem Rewrite.replaced (h : Rewrite b i (.replace j)) :
    (∃ c, j = .const c) ∨ ∃ w z, j = .plain (.unary w .neg) [z] := by
  cases h with
  | foldUnary => exact .inl ⟨_, rfl⟩
  | binary _ _ _ h | swapped _ _ _ _ h => exact h.replaced

/-- What is kept has the same operands, in this order or the other one. -/
theorem Rewrite.kept (h : Rewrite b i (.keep j)) (hfit : i.Fits b k) :
    j.opcode = i.opcode ∧ j.operandList.Perm i.operandList := by
  cases h with
  | keep => exact ⟨rfl, .refl _⟩
  | swap hop hcomm hx hy =>
    obtain ⟨⟨s, t, hops, -⟩, -⟩ := operands_of_isIntBinary hop
    rw [operandList_two hfit hops hx hy]
    exact ⟨rfl, .swap _ _ _⟩
  | binary _ _ _ h | swapped _ _ _ _ h => exact absurd rfl (h.ne_keep j)

/-- Instructions that read or produce a float are handed on as they are. -/
theorem simplify_of_isFloat (b : Buffer)
    (h : i.result.isFloat = true ∨ ∃ t ∈ i.opcode.operands, t.isFloat = true) :
    i.simplify b = .ok (.keep i) := by
  unfold Instr.simplify
  unfold Instr.result at h
  split
  case h_9 => rfl
  all_goals
    rename_i hop
    rw [hop] at h
    simp [Opcode.result, Opcode.operands, Ty.isFloat, ValTy.isFloat, Conversion.source,
      Conversion.target] at h

end Simplify

/-- What a plan for `i` comes to when the instructions of the buffer have the values `σ`. An
    instruction that is put in place of `i`, or found to have its value, is one of the same type
    and value, and `i` has a value. For a shift in place of a product this holds in every buffer
    that has grown from this one, with the count in it. -/
def Plan.Exact (f : FloatModel) (b : Buffer) (σ : Nat → Const) (i : Instr) : Plan → Prop
  | .keep j => j.opcode = i.opcode ∧ j.operandList.Perm i.operandList ∧
      Interp.valueUnder f b σ j = Interp.valueUnder f b σ i
  | .existing h => b.Refers b.size h i.result ∧ Interp.valueUnder f b σ i = some (σ h.index)
  | .replace j => j.result = i.result ∧ ∃ v, Interp.valueUnder f b σ i = some v ∧
      Interp.valueUnder f b σ j = some v
  | .shiftLeft w a k => i.result = .val (.int w) ∧ ∃ v, Interp.valueUnder f b σ i = some v ∧
      ∀ (b' : Buffer) (σ' : Nat → Const) (h : Handle), b.Extends b' → (∀ n < b.size, σ' n = σ n) →
        b'.get? h = some (.const (.int32 (BitVec.ofNat 32 k))) →
        Interp.valueUnder f b' σ' (.plain (.shift w .shl) [a, h]) = some v

namespace Simplify

variable {f : FloatModel} {b : Buffer} {i : Instr} {p : Plan} {σ : Nat → Const}

open Interp

/-- The instructions that a rewrite takes back hold what they compute. -/
theorem coherent_of_solves (hσ : Solves f b σ) (hb : b.Validated) {j : Instr}
    (hj : b.get? x = some j) (hundo : undoes i.opcode j.opcode = true) :
    operand? b (fun n => some (σ n)) x = valueUnder f b σ j := by
  obtain ⟨-, hpure, himm⟩ := pure_of_undoes hundo
  obtain ⟨hint, htrap⟩ := isInteger_of_undoes hundo
  obtain ⟨-, hat⟩ := Buffer.get?_eq_some hj
  obtain ⟨v, hv⟩ := (hσ.ready hb (hb.fits hat)).exists_meaning (f := f) hpure himm htrap
  rw [operand?_of_get? hj, Instr.constant?_eq_none himm, Option.none_or,
    hσ.equation _ j v hat hint hv]
  exact hv.symm

/-- The shift in place of a product, in a buffer that has grown. -/
theorem valueUnder_shl {b' : Buffer} {σ' : Nat → Const} {w : Width} {a : Handle} {t : Ty}
    {x : BitVec w.bits} {c : BitVec 32} (ha : b.Refers b.size a t)
    (hx : operand? b (fun n => some (σ n)) a = some (.ofInt w x)) (hb' : b.Extends b')
    (hσ' : ∀ n < b.size, σ' n = σ n) (hh : b'.get? h = some (.const (.int32 c))) :
    valueUnder f b' σ' (.plain (.shift w .shl) [a, h])
      = some (.ofInt w (ShiftOp.shl.apply x c)) := by
  obtain ⟨j, hj⟩ := ha.get?
  have hx' : operand? b' (fun n => some (σ' n)) a = some (.ofInt w x) := by
    rw [hb'.becomes.operand? hj, ← hx, operand?_of_get? hj, operand?_of_get? hj, hσ' _ ha.lt]
  have hc : operand? b' (fun n => some (σ' n)) h = some (.int32 c) := by
    rw [operand?_of_get? hh]
    rfl
  exact (meaning_two hx' hc rfl rfl rfl).trans (pureValue_shift w .shl x c)

/-- Every rewrite of an integer instruction is exact under every solution. -/
theorem Rewrite.exact (h : Rewrite b i p) (hb : b.Validated) (hi : i.check b = .ok ())
    (hint : i.opcode.isInteger = true) (hσ : Solves f b σ) : p.Exact f b σ i := by
  have hfit := Instr.fits_of_check hi
  have htyped := h.typed hb hi
  have hmeans : p.Means f b (fun n => some (σ n)) (valueUnder f b σ i) :=
    h.means hb hi (hσ.ready hb hfit) fun x _ j hj hundo => coherent_of_solves hσ hb hj hundo
  cases p with
  | keep j =>
    obtain ⟨hop, hperm⟩ := h.kept hfit
    exact ⟨hop, hperm, hmeans.2⟩
  | existing x =>
    refine ⟨htyped, ?_⟩
    have hres : i.result.isInt = true := by
      rw [Opcode.isInteger, Bool.and_eq_true, Bool.and_eq_true] at hint
      exact hint.1.2
    have hx : b.Refers b.size x i.result := htyped
    cases ht : i.result with
    | void => rw [ht] at hres; cases hres
    | val t =>
      rw [ht] at hres hx
      have hmeans : operand? b (fun n => some (σ n)) x = valueUnder f b σ i := hmeans
      rw [← hmeans]
      exact hσ.operand? hx (by simpa [Ty.isInt] using hres)
  | replace j =>
    refine ⟨htyped.2, ?_⟩
    obtain ⟨v, hv⟩ : ∃ v, valueUnder f b σ j = some v := by
      rcases h.replaced with ⟨c, rfl⟩ | ⟨w, z, rfl⟩
      · exact ⟨c, meaning_const c⟩
      · exact hmeans.1.exists_meaning rfl rfl rfl
    exact ⟨v, hmeans.2.symm.trans hv, hv⟩
  | shiftLeft w a k =>
    obtain ⟨x, hx, hvalue⟩ := hmeans
    exact ⟨htyped.1, _, hvalue.symm, fun b' σ' h hb' hσ' hh =>
      valueUnder_shl htyped.2 hx hb' hσ' hh⟩

end Simplify

/-- Under every solution of a checked buffer, the plan for an integer instruction that passes the
    check is exact: what is put in its place, or found to have its value, has its value and type,
    and then the instruction has a value. Instructions that read or produce a float are handed on
    as they are. -/
theorem Instr.simplify_exact {f : FloatModel} {b : Buffer} {σ : Nat → Const} (hb : b.Validated)
    (hσ : Interp.Solves f b σ) (i : Instr) :
    (i.opcode.isInteger = true → i.opcode.isImmediate = false → i.check b = .ok () →
      ∃ p, i.simplify b = .ok p ∧ p.Exact f b σ i) ∧
    (i.result.isFloat = true ∨ (∃ t ∈ i.opcode.operands, t.isFloat = true) →
      ∀ b' : Buffer, i.simplify b' = .ok (.keep i)) := by
  refine ⟨fun hint _ hi => ?_, fun hfloat b' => Simplify.simplify_of_isFloat b' hfloat⟩
  obtain ⟨p, hp⟩ := Simplify.exists_plan hi
  exact ⟨p, hp, (Simplify.rewrite_of_simplify hp).exact hb hi hint hσ⟩

/-- A parameter and the constant eight. -/
def Buffer.octuple : Buffer :=
  (Buffer.empty 0).appendAll [⟨.param, .empty, .param 0⟩, .const (.int64 8)]

/-- A value for the parameter, so large that eight times it does not fit a word. -/
def Buffer.octupleValue : Nat → Const
  | 0 => .int64 0x2000000000000001
  | _ => .int64 8

theorem Buffer.octuple_solves (f : FloatModel) : Interp.Solves f .octuple octupleValue := by
  have hcases : ∀ {n : Nat} {i : Instr}, octuple.instrs[n]? = some i →
      n = 0 ∧ i = ⟨.param, .empty, .param 0⟩ ∨ n = 1 ∧ i = .const (.int64 8) := by
    intro n i hi
    match n with
    | 0 => cases hi; exact .inl ⟨rfl, rfl⟩
    | 1 => cases hi; exact .inr ⟨rfl, rfl⟩
    | n + 2 => cases hi
  refine ⟨fun n i t hi ht => ?_, fun n i v hi hint hv => ?_⟩
  · rcases hcases hi with ⟨rfl, rfl⟩ | ⟨rfl, rfl⟩ <;> cases ht <;> rfl
  · rcases hcases hi with ⟨rfl, rfl⟩ | ⟨rfl, rfl⟩
    · cases hint
    · cases hv
      rfl

/-- Eight times the parameter. -/
def Buffer.octupleProduct : Instr :=
  .plain (.arith .w64 .mul) [⟨0, 1⟩, ⟨0, 0⟩]

/-- A product with the constant on the left becomes a shift by three, in whatever buffer the
    constant three joins. -/
theorem Instr.simplify_exact_octuple :
    Buffer.octuple.Validated ∧ Buffer.octupleProduct.check .octuple = .ok () ∧
      Buffer.octupleProduct.simplify .octuple = .ok (.shiftLeft .w64 ⟨0, 0⟩ 3) ∧
      ∀ f, Interp.Solves f .octuple Buffer.octupleValue ∧
        (Plan.shiftLeft .w64 ⟨0, 0⟩ 3).Exact f .octuple Buffer.octupleValue
          Buffer.octupleProduct := by
  have hb : Buffer.octuple.Validated := (Buffer.Validated.empty 0).appendAll (by decide)
  have hplan : Buffer.octupleProduct.simplify .octuple = .ok (.shiftLeft .w64 ⟨0, 0⟩ 3) := by
    decide
  refine ⟨hb, by decide, hplan, fun f => ⟨Buffer.octuple_solves f, ?_⟩⟩
  obtain ⟨p, hp, hexact⟩ := (Instr.simplify_exact hb (Buffer.octuple_solves f)
    Buffer.octupleProduct).1 rfl rfl (by decide)
  cases hplan.symm.trans hp
  exact hexact

end JitBackend
