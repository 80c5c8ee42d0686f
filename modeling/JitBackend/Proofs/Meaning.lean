import JitBackend.Proofs.Effects
import JitBackend.Proofs.Interpreter
import JitBackend.Proofs.Typing

namespace JitBackend

/-!
# Values of pure instructions

What a pure instruction computes from the values of its operands, and that every rewrite of the
simplifier computes the same. An instruction whose operands have values of the right types has a
value itself, unless it is a division without a quotient; rewrites neither add such a division
nor drop one.

* `Interp.meaning` — the value of a pure instruction in an environment;
* `Interp.Ready` — its operands have values of the right types;
* `Interp.pureValue_total` — it has a value or traps;
* `Simplify.Rewrite.means` — a rewrite keeps the value.
-/

/-! ### Constants of a type -/

variable {v u r : Const} {op : Opcode} {w : Width} {c : BitVec 64} {t s : ValTy} {x y : Handle}
  {k n : Nat} {args : List Const}

namespace Const

theorem exists_ofInt (h : v.ty = .int w) : ∃ x, v = .ofInt w x := by
  cases v <;> cases h <;> exact ⟨_, rfl⟩

theorem exists_ofPattern {s : FloatSize} (h : v.ty = .float s) : ∃ p, v = .ofPattern s p := by
  cases v <;> cases h <;> exact ⟨_, rfl⟩

@[simp] theorem word?_ofInt (w : Width) (x : BitVec w.bits) : (ofInt w x).word? w = some x := by
  cases w <;> rfl

theorem eq_ofInt_of_word? {x : BitVec w.bits} (h : v.word? w = some x) : v = .ofInt w x := by
  cases w <;> cases v <;> cases h <;> rfl

@[simp] theorem pattern?_ofPattern (s : FloatSize) (p : BitVec s.bits) :
    (ofPattern s p).pattern? s = some p := by
  cases s <;> rfl

theorem ty_ofPattern (s : FloatSize) (p : BitVec s.bits) : (ofPattern s p).ty = .float s := by
  cases s <;> rfl

theorem ty_ofBits (t : ValTy) (bits : BitVec 64) : (ofBits t bits).ty = t := by
  match t with
  | .int32 | .int64 | .float64 | .float32 => rfl

theorem setWidth_signExtend (x : BitVec 32) : (x.signExtend 64).setWidth 32 = x := by
  grind

/-- The sign-extended value of an integer constant tells its word. -/
theorem setWidth_of_int? {x : BitVec w.bits} (h : (ofInt w x).int? = some c) :
    c.setWidth w.bits = x := by
  cases w with
  | w32 => cases h; exact setWidth_signExtend x
  | w64 => cases h; exact BitVec.setWidth_eq _

end Const

/-- The constant of an instruction that produces one. -/
def Instr.constant? (i : Instr) : Option Const :=
  match i.opcode, i.payload with
  | .imm _, .const c => some c
  | _, _ => none

theorem Instr.constant?_eq_none {i : Instr} (h : i.opcode.isImmediate = false) :
    i.constant? = none := by
  unfold constant?
  split
  · rw [‹i.opcode = _›] at h
    cases h
  · rfl

theorem Instr.constant?_eq_some {i : Instr} {c : Const} (h : i.constant? = some c) :
    (∃ t, i.opcode = .imm t) ∧ i.payload = .const c := by
  unfold constant? at h
  split at h
  · cases h
    exact ⟨⟨_, ‹_›⟩, ‹_›⟩
  · cases h

/-- Whether an operation is a division, the only kind that traps. -/
def Opcode.canTrap : Opcode → Bool
  | .arith _ .div | .arith _ .rem => true
  | _ => false

/-! ### Values -/

namespace Interp

variable {b : Buffer} {env : Nat → Option Const} {f : FloatModel} {i : Instr}

/-- Value of a pure instruction, `none` where it traps. -/
def meaning (f : FloatModel) (b : Buffer) (env : Nat → Option Const) (i : Instr) : Option Const :=
  i.constant?.or ((operands? b env i).bind (pureValue f i.opcode))

/-- The operands of the instruction have values of the right types. -/
def Ready (b : Buffer) (env : Nat → Option Const) (i : Instr) : Prop :=
  List.Forall₂ (fun h t => ∃ v, operand? b env h = some v ∧ v.ty = t) i.operandList
    i.opcode.operands

theorem operand?_of_get? {h : Handle} (hi : b.get? h = some i) :
    operand? b env h = i.constant?.or (env h.index) := by
  unfold operand? Instr.constant?
  rw [hi]
  obtain ⟨op, ops, p⟩ := i
  cases op with
  | imm t => cases p <;> rfl
  | _ => rfl

theorem meaning_of_constant? {c : Const} (h : i.constant? = some c) :
    meaning f b env i = some c := by
  rw [meaning, h, Option.some_or]

theorem meaning_const (c : Const) : meaning f b env (.const c) = some c :=
  meaning_of_constant? rfl

theorem meaning_of_not_immediate (h : i.opcode.isImmediate = false) :
    meaning f b env i = (operands? b env i).bind (pureValue f i.opcode) := by
  rw [meaning, Instr.constant?_eq_none h, Option.none_or]

theorem mapM_of_forall₂ {hs : List Handle} {ts : List ValTy}
    (h : List.Forall₂ (fun h t => ∃ v, operand? b env h = some v ∧ v.ty = t) hs ts) :
    ∃ args, hs.mapM (operand? b env) = some args ∧ args.map Const.ty = ts := by
  induction h with
  | nil => exact ⟨[], rfl, rfl⟩
  | cons hx _ ih =>
    obtain ⟨v, hv, rfl⟩ := hx
    obtain ⟨args, hargs, rfl⟩ := ih
    exact ⟨v :: args, by simp [List.mapM_cons, hv, hargs], rfl⟩

theorem Ready.operands? (h : Ready b env i) :
    ∃ args, Interp.operands? b env i = some args ∧ args.map Const.ty = i.opcode.operands :=
  mapM_of_forall₂ h

theorem ready_const (c : Const) : Ready b env (.const c) :=
  .nil

/-! ### Operations on values of the right types -/

theorem args_one (h : args.map Const.ty = [t]) : ∃ x, args = [x] ∧ x.ty = t := by
  obtain ⟨x, rest, rfl, hx, hrest⟩ := List.map_eq_cons_iff.mp h
  cases List.map_eq_nil_iff.mp hrest
  exact ⟨x, rfl, hx⟩

theorem args_two (h : args.map Const.ty = [s, t]) : ∃ x y, args = [x, y] ∧ x.ty = s ∧ y.ty = t := by
  obtain ⟨x, rest, rfl, hx, hrest⟩ := List.map_eq_cons_iff.mp h
  obtain ⟨y, rfl, hy⟩ := args_one hrest
  exact ⟨x, y, rfl, hx, hy⟩

theorem args_three {r : ValTy} (h : args.map Const.ty = [r, s, t]) :
    ∃ x y z, args = [x, y, z] ∧ x.ty = r ∧ y.ty = s ∧ z.ty = t := by
  obtain ⟨x, rest, rfl, hx, hrest⟩ := List.map_eq_cons_iff.mp h
  obtain ⟨y, z, rfl, hy, hz⟩ := args_two hrest
  exact ⟨x, y, z, rfl, hx, hy, hz⟩

@[simp] theorem pureValue_arith (w : Width) (o : IntOp) (x y : BitVec w.bits) :
    pureValue f (.arith w o) [.ofInt w x, .ofInt w y] = (o.apply x y).map (.ofInt w) := by
  simp only [pureValue, Const.word?_ofInt, Option.bind_eq_bind, Option.bind_some, Option.pure_def]
  cases o.apply x y <;> rfl

@[simp] theorem pureValue_shift (w : Width) (o : ShiftOp) (x : BitVec w.bits) (y : BitVec 32) :
    pureValue f (.shift w o) [.ofInt w x, .int32 y] = some (.ofInt w (o.apply x y)) := by
  cases w <;> rfl

@[simp] theorem pureValue_unary (w : Width) (o : IntUnary) (x : BitVec w.bits) :
    pureValue f (.unary w o) [.ofInt w x] = some (.ofInt w (o.apply x)) := by
  simp [pureValue]

@[simp] theorem pureValue_compare (w : Width) (rel : IntRel) (x y : BitVec w.bits) :
    pureValue f (.compare w rel) [.ofInt w x, .ofInt w y] = some (.ofBool (rel.holds x y)) := by
  simp [pureValue]

@[simp] theorem pureValue_select (t : ValTy) (c : BitVec 32) (x y : Const) :
    pureValue f (.select t) [.int32 c, x, y] = some (if c = 0 then y else x) :=
  rfl

/-- A conversion has a value for every operand of its type. -/
theorem convertValue_total {c : Conversion} (h : v.ty = c.source) :
    ∃ r, convertValue f c v = some r ∧ r.ty = c.target := by
  cases c <;> cases v <;> cases h <;> exact ⟨_, rfl, rfl⟩

theorem canTrap_of_apply {o : IntOp} {x y : BitVec w.bits} (h : o.apply x y = none) :
    (Opcode.arith w o).canTrap = true := by
  cases o <;> first | rfl | cases h

/-- A pure operation on operands of the right types has a value of the right type, or it is a
    division without a quotient. -/
theorem pureValue_total (f : FloatModel) (hpure : op.effect = .pure) (himm : op.isImmediate = false)
    (ht : args.map Const.ty = op.operands) :
    (∃ v, pureValue f op args = some v ∧ op.result = .val v.ty) ∨
      op.canTrap = true ∧ pureValue f op args = none ∧ divisionTraps op args = true := by
  cases op with
  | arith w o =>
    obtain ⟨u, v, rfl, hu, hv⟩ := args_two ht
    obtain ⟨x, rfl⟩ := Const.exists_ofInt hu
    obtain ⟨y, rfl⟩ := Const.exists_ofInt hv
    rw [pureValue_arith]
    cases happly : o.apply x y with
    | some z => exact .inl ⟨_, rfl, by rw [Const.ty_ofInt]; rfl⟩
    | none =>
      refine .inr ⟨canTrap_of_apply happly, rfl, ?_⟩
      simp [divisionTraps, happly]
  | shift w o =>
    obtain ⟨u, v, rfl, hu, hv⟩ := args_two ht
    obtain ⟨x, rfl⟩ := Const.exists_ofInt hu
    obtain ⟨y, rfl⟩ := Const.exists_ofInt hv
    exact .inl ⟨_, pureValue_shift w o x y, by rw [Const.ty_ofInt]; rfl⟩
  | unary w o =>
    obtain ⟨u, rfl, hu⟩ := args_one ht
    obtain ⟨x, rfl⟩ := Const.exists_ofInt hu
    exact .inl ⟨_, pureValue_unary w o x, by rw [Const.ty_ofInt]; rfl⟩
  | compare w rel =>
    obtain ⟨u, v, rfl, hu, hv⟩ := args_two ht
    obtain ⟨x, rfl⟩ := Const.exists_ofInt hu
    obtain ⟨y, rfl⟩ := Const.exists_ofInt hv
    exact .inl ⟨_, pureValue_compare w rel x y, rfl⟩
  | floatArith s o =>
    obtain ⟨u, v, rfl, hu, hv⟩ := args_two ht
    obtain ⟨x, rfl⟩ := Const.exists_ofPattern hu
    obtain ⟨y, rfl⟩ := Const.exists_ofPattern hv
    refine .inl ⟨.ofPattern s (f.arith o s x y), by simp [pureValue], ?_⟩
    rw [Const.ty_ofPattern]; rfl
  | floatNeg s =>
    obtain ⟨u, rfl, hu⟩ := args_one ht
    obtain ⟨x, rfl⟩ := Const.exists_ofPattern hu
    refine .inl ⟨.ofPattern s (x ^^^ BitVec.intMin s.bits), by simp [pureValue], ?_⟩
    rw [Const.ty_ofPattern]; rfl
  | floatCompare s rel =>
    obtain ⟨u, v, rfl, hu, hv⟩ := args_two ht
    obtain ⟨x, rfl⟩ := Const.exists_ofPattern hu
    obtain ⟨y, rfl⟩ := Const.exists_ofPattern hv
    exact .inl ⟨.ofBool (rel.holds (f.order s x y)), by simp [pureValue], rfl⟩
  | convert c =>
    obtain ⟨v, rfl, hv⟩ := args_one ht
    obtain ⟨r, hr, hty⟩ := convertValue_total (f := f) hv
    exact .inl ⟨r, hr, by rw [hty]; rfl⟩
  | select t =>
    obtain ⟨c, x, y, rfl, hc, hx, hy⟩ := args_three ht
    obtain ⟨k, rfl⟩ := Const.exists_ofInt hc
    refine .inl ⟨_, pureValue_select t k x y, ?_⟩
    show Ty.val t = _
    split
    · rw [hy]
    · rw [hx]
  | imm t => cases himm
  | _ => cases hpure

end Interp

/-! ### Integer identities -/

namespace Simplify

open Interp

variable {b : Buffer} {env : Nat → Option Const} {f : FloatModel} {i : Instr} {p : Plan}

theorem divTraps_one (w : Width) (x : BitVec w.bits) : IntOp.divTraps x 1#w.bits = false := by
  cases w <;> simp [IntOp.divTraps, Width.bits]

theorem holds_self (rel : IntRel) (x : BitVec n) : rel.holds x x = rel.isReflexive := by
  cases rel <;> simp [IntRel.holds, IntRel.isReflexive, BitVec.slt, BitVec.sle, BitVec.ult,
    BitVec.ule]

/-- A positive sign-extended word has the bits of the word. -/
theorem toNat_signExtend_of_pos (x : BitVec 32) (h : 0 < (x.signExtend 64).toInt) :
    x.toNat = (x.signExtend 64).toNat ∧ (x.signExtend 64).toNat < 2 ^ 31 := by
  have hsign : (x.signExtend 64).toInt = x.toInt := BitVec.toInt_signExtend_of_le (by decide)
  have hwide := BitVec.toInt_eq_toNat_cond (x.signExtend 64)
  have hword := BitVec.toInt_eq_toNat_cond x
  split at hwide <;> split at hword <;> omega

/-- A constant that is a power of two is the same power as a word, and its exponent is a count
    that fits the width. -/
theorem twoPow_of_powerOfTwo? {x : BitVec w.bits} (hx : (Const.ofInt w x).int? = some c)
    (hk : powerOfTwo? c = some k) : x = BitVec.twoPow w.bits k ∧ k < w.bits := by
  unfold powerOfTwo? at hk
  split at hk
  case isFalse => cases hk
  rename_i hc
  obtain ⟨hpos, hpow⟩ := hc
  cases hk
  have hc64 : c.toNat < 2 ^ 63 := by
    have := BitVec.toInt_eq_toNat_cond c
    split at this <;> omega
  have htoNat : x.toNat = c.toNat ∧ c.toNat < 2 ^ (w.bits - 1) := by
    cases w with
    | w64 => cases hx; exact ⟨rfl, hc64⟩
    | w32 => cases hx; exact toNat_signExtend_of_pos x (by omega)
  have hlt : c.toNat.log2 < w.bits - 1 := by
    refine (Nat.pow_lt_pow_iff_right (a := 2) (by omega)).mp ?_
    rw [← hpow]
    exact htoNat.2
  refine ⟨BitVec.eq_of_toNat_eq ?_, by omega⟩
  rw [htoNat.1, BitVec.toNat_twoPow, ← hpow, Nat.mod_eq_of_lt]
  exact htoNat.1 ▸ x.isLt

/-- A product with a power of two is a shift. -/
theorem mul_of_powerOfTwo? {x y : BitVec w.bits} (hy : (Const.ofInt w y).int? = some c)
    (hk : powerOfTwo? c = some k) : x * y = ShiftOp.shl.apply x (BitVec.ofNat 32 k) := by
  obtain ⟨rfl, hlt⟩ := twoPow_of_powerOfTwo? hy hk
  have hbits : w.bits ≤ 64 := by cases w <;> decide
  have hcount : (BitVec.ofNat 32 k).toNat % w.bits = k := by
    rw [BitVec.toNat_ofNat, Nat.mod_eq_of_lt (a := k) (by omega), Nat.mod_eq_of_lt hlt]
  rw [ShiftOp.apply, hcount, BitVec.mul_twoPow_eq_shiftLeft]

theorem shift_zero (o : ShiftOp) {m : Nat} (x : BitVec n) : o.apply x (0#m) = x := by
  cases o <;> simp [ShiftOp.apply]

theorem zero_shift (o : ShiftOp) {m : Nat} (k : BitVec m) : o.apply (0#n) k = 0#n := by
  cases o <;> simp [ShiftOp.apply]

/-- Operands of an integer operation of one width. -/
theorem words_of_ty (h : [u, v].map Const.ty = [.int w, .int w]) :
    ∃ x y, u = .ofInt w x ∧ v = .ofInt w y := by
  obtain ⟨_, _, heq, hu, hv⟩ := args_two h
  cases heq
  obtain ⟨x, rfl⟩ := Const.exists_ofInt hu
  obtain ⟨y, rfl⟩ := Const.exists_ofInt hv
  exact ⟨x, y, rfl, rfl⟩

/-- Operands of a shift. -/
theorem words_of_shift (h : [u, v].map Const.ty = [.int w, .int32]) :
    ∃ x y, u = .ofInt w x ∧ v = .int32 y := by
  obtain ⟨_, _, heq, hu, hv⟩ := args_two h
  cases heq
  obtain ⟨x, rfl⟩ := Const.exists_ofInt hu
  obtain ⟨y, rfl⟩ := Const.exists_ofInt hv
  exact ⟨x, y, rfl, rfl⟩

/-- A unit on the right leaves the other operand as it is. -/
theorem pureValue_of_isUnit (h : IsUnit op c) (hv : v.int? = some c)
    (ht : [u, v].map Const.ty = op.operands) : pureValue f op [u, v] = some u := by
  cases op with
  | arith w o =>
    obtain ⟨x, y, rfl, rfl⟩ := words_of_ty ht
    have hy := (Const.setWidth_of_int? hv).symm
    cases o with
    | add | sub | xor | or => cases h; subst hy; simp [IntOp.apply]
    | and =>
      cases h
      have hy : y = BitVec.allOnes _ := by rw [hy]; cases w <;> decide
      subst hy; simp [IntOp.apply]
    | mul =>
      cases h
      have hy : y = 1#_ := by rw [hy]; cases w <;> decide
      subst hy; simp [IntOp.apply]
    | div =>
      cases h
      have hy : y = 1#_ := by rw [hy]; cases w <;> decide
      subst hy; simp [IntOp.apply, divTraps_one]
    | rem => cases h
  | shift w o =>
    obtain ⟨x, y, rfl, rfl⟩ := words_of_shift ht
    have hy : y = 0#32 := by
      rw [← Const.setWidth_of_int? (w := .w32) hv]
      cases h; rfl
    rw [hy, pureValue_shift, shift_zero]
  | _ => cases h

/-- A constant on the right that is the result, whatever the other operand is. -/
theorem pureValue_of_absorbs {o : IntOp} (h : Absorbs o c) (hv : v.int? = some c)
    (ht : [u, v].map Const.ty = (Opcode.arith w o).operands) :
    pureValue f (.arith w o) [u, v] = some v := by
  obtain ⟨x, y, rfl, rfl⟩ := words_of_ty ht
  have hy := (Const.setWidth_of_int? hv).symm
  cases o with
  | and | mul => cases h; subst hy; simp [IntOp.apply]
  | or =>
    cases h
    have hy : y = BitVec.allOnes _ := by rw [hy]; cases w <;> decide
    subst hy; simp [IntOp.apply]
  | _ => cases h

/-- Folding gives the value that the operation has on the constants. -/
theorem pureValue_of_foldBinary {d : BitVec 64} (h : foldBinary op c d = some r)
    (hu : u.int? = some c) (hv : v.int? = some d) (ht : [u, v].map Const.ty = op.operands) :
    pureValue f op [u, v] = some r := by
  unfold foldBinary at h
  split at h
  · obtain ⟨x, y, rfl, rfl⟩ := words_of_ty ht
    rw [pureValue_arith, ← h, Const.setWidth_of_int? hu, Const.setWidth_of_int? hv]
  · obtain ⟨x, y, rfl, rfl⟩ := words_of_shift ht
    rw [pureValue_shift, ← h, Const.setWidth_of_int? hu, ← Const.setWidth_of_int? (w := .w32) hv]
    rfl
  · obtain ⟨x, y, rfl, rfl⟩ := words_of_ty ht
    rw [pureValue_compare, ← h, Const.setWidth_of_int? hu, Const.setWidth_of_int? hv]
  · cases h

variable (hop : op.isIntBinary = true) (hcomm : op.isCommutative = true)
  (ht : [u, v].map Const.ty = op.operands)

include hop hcomm ht

/-- The operands of a commutative operation may be exchanged. -/
theorem pureValue_comm : pureValue f op [v, u] = pureValue f op [u, v] := by
  cases op with
  | arith w o =>
    obtain ⟨x, y, rfl, rfl⟩ := words_of_ty ht
    rw [pureValue_arith, pureValue_arith]
    cases o with
    | add => rw [IntOp.apply, IntOp.apply, BitVec.add_comm]
    | mul => rw [IntOp.apply, IntOp.apply, BitVec.mul_comm]
    | and => rw [IntOp.apply, IntOp.apply, BitVec.and_comm]
    | or => rw [IntOp.apply, IntOp.apply, BitVec.or_comm]
    | xor => rw [IntOp.apply, IntOp.apply, BitVec.xor_comm]
    | sub | div | rem => cases hcomm
  | compare w rel =>
    obtain ⟨x, y, rfl, rfl⟩ := words_of_ty ht
    rw [pureValue_compare, pureValue_compare]
    cases rel with
    | eq => rw [IntRel.holds, IntRel.holds, Bool.beq_comm]
    | _ => cases hcomm
  | shift w o => cases hcomm
  | _ => cases hop

theorem ty_comm : [v, u].map Const.ty = op.operands := by
  obtain ⟨⟨s, t, hops, hst⟩, -⟩ := operands_of_isIntBinary hop
  cases hst hcomm
  obtain ⟨_, _, heq, hu, hv⟩ := args_two (ht.trans hops)
  cases heq
  rw [hops, List.map_cons, List.map_singleton, hu, hv]

end Simplify

/-! ### Plans -/

/-- What a plan comes to: what is handed on is ready, and the answer has the value `r`. -/
def Plan.Means (f : FloatModel) (b : Buffer) (env : Nat → Option Const) (r : Option Const) :
    Plan → Prop
  | .keep j | .replace j => Interp.Ready b env j ∧ Interp.meaning f b env j = r
  | .existing h => Interp.operand? b env h = r
  | .shiftLeft w a k => ∃ x : BitVec w.bits, Interp.operand? b env a = some (.ofInt w x) ∧
      some (.ofInt w (ShiftOp.shl.apply x (BitVec.ofNat 32 k))) = r

namespace Simplify

open Interp

variable {b : Buffer} {env : Nat → Option Const} {f : FloatModel} {i : Instr} {p : Plan}

/-- What the simplifier takes for a constant has that value. -/
theorem int?_of_constOf? {h : Handle} (hb : b.Validated) (hc : constOf? b h = some c)
    (hv : operand? b env h = some v) : v.int? = some c := by
  obtain ⟨i, hi, hint⟩ := Option.bind_eq_some_iff.mp hc
  obtain ⟨k, hk, hkc⟩ := Option.bind_eq_some_iff.mp hint
  have hpay : i.payload = .const k := by
    unfold Payload.const? at hk
    split at hk
    · cases hk; assumption
    · cases hk
  have hget : b.instrs[h.index]? = some i := by
    unfold Buffer.get? at hi
    split at hi
    · exact hi
    · cases hi
  -- in a checked buffer only immediates carry constants
  have hconst : i.constant? = some k := by
    have hkind := (hb.fits hget).kind
    rw [hpay] at hkind
    unfold Instr.constant?
    rw [hpay]
    cases hop : i.opcode with
    | imm t => rfl
    | _ => rw [hop] at hkind; cases hkind
  rw [operand?_of_get? hi, hconst, Option.some_or] at hv
  cases hv
  exact hkc

theorem meaning_two (hu : operand? b env x = some u) (hv : operand? b env y = some v)
    (hlist : i.operandList = [x, y]) (hop : i.opcode = op) (himm : op.isImmediate = false) :
    meaning f b env i = pureValue f op [u, v] := by
  rw [meaning_of_not_immediate (hop ▸ himm), operands?, hlist, hop]
  simp [List.mapM_cons, hu, hv]

theorem meaning_one (hu : operand? b env x = some u) (hlist : i.operandList = [x])
    (hop : i.opcode = op) (himm : op.isImmediate = false) :
    meaning f b env i = pureValue f op [u] := by
  rw [meaning_of_not_immediate (hop ▸ himm), operands?, hlist, hop]
  simp [List.mapM_cons, hu]

/-- An identity keeps the value of an operation whose operands have the values `u` and `v`. -/
theorem Identity.means (h : Identity x y (constOf? b x) (constOf? b y) op p) (hb : b.Validated)
    (hu : operand? b env x = some u) (hv : operand? b env y = some v)
    (ht : [u, v].map Const.ty = op.operands) : p.Means f b env (pureValue f op [u, v]) := by
  have hsame : x = y → u = v := by
    rintro rfl
    exact Option.some.inj (hu.symm.trans hv)
  cases h with
  | fold hx hy hc =>
    refine ⟨ready_const _, (meaning_const _).trans ?_⟩
    exact (pureValue_of_foldBinary hc (int?_of_constOf? hb hx hu) (int?_of_constOf? hb hy hv)
      ht).symm
  | cancel hab ho =>
    cases hsame hab
    obtain ⟨z, _, rfl, -⟩ := words_of_ty ht
    refine ⟨ready_const _, (meaning_const _).trans ?_⟩
    rcases ho with rfl | rfl <;> simp [IntOp.apply]
  | idempotent hab ho =>
    cases hsame hab
    obtain ⟨z, _, rfl, -⟩ := words_of_ty ht
    refine hu.trans ?_
    rcases ho with rfl | rfl <;> simp [IntOp.apply]
  | reflexive hab =>
    cases hsame hab
    obtain ⟨z, _, rfl, -⟩ := words_of_ty ht
    refine ⟨ready_const _, (meaning_const _).trans ?_⟩
    rw [pureValue_compare, holds_self]
  | unit hy hc =>
    exact hu.trans (pureValue_of_isUnit hc (int?_of_constOf? hb hy hv) ht).symm
  | absorb hy hc =>
    exact hv.trans (pureValue_of_absorbs hc (int?_of_constOf? hb hy hv) ht).symm
  | power hy hk =>
    obtain ⟨z, z', rfl, rfl⟩ := words_of_ty ht
    refine ⟨z, hu, ?_⟩
    rw [pureValue_arith, IntOp.apply, Option.map_some,
      mul_of_powerOfTwo? (int?_of_constOf? hb hy hv) hk]
  | remOne hy =>
    obtain ⟨z, z', rfl, rfl⟩ := words_of_ty ht
    refine ⟨ready_const _, (meaning_const _).trans ?_⟩
    have hz' : z' = 1#_ := by
      rw [← Const.setWidth_of_int? (int?_of_constOf? hb hy hv)]
      rename_i w
      cases w <;> decide
    subst hz'
    simp [IntOp.apply, divTraps_one]
  | negate hx =>
    obtain ⟨z, z', rfl, rfl⟩ := words_of_ty ht
    have hz := (Const.setWidth_of_int? (int?_of_constOf? hb hx hu)).symm
    refine ⟨.cons ⟨_, hv, Const.ty_ofInt _ _⟩ .nil,
      (meaning_one hv rfl rfl rfl).trans ((pureValue_unary _ _ _).trans ?_)⟩
    rw [pureValue_arith, hz]
    simp [IntOp.apply, IntUnary.apply]
  | shiftZero hx =>
    obtain ⟨z, z', rfl, rfl⟩ := words_of_shift ht
    have hz : z = 0#_ := by
      rw [← Const.setWidth_of_int? (int?_of_constOf? hb hx hu)]
      exact BitVec.setWidth_zero _ _
    refine hu.trans ?_
    rw [pureValue_shift, hz, zero_shift]

/-- Folding gives the value that the operation has on the constant. -/
theorem pureValue_of_foldUnary (h : foldUnary op c = some r) (hu : u.int? = some c)
    (ht : [u].map Const.ty = op.operands) : pureValue f op [u] = some r := by
  have hword : ∀ {w : Width}, [u].map Const.ty = [.int w] →
      ∃ x : BitVec w.bits, u = .ofInt w x ∧ c.setWidth w.bits = x := by
    intro w hw
    obtain ⟨_, heq, hty⟩ := args_one hw
    cases heq
    obtain ⟨x, rfl⟩ := Const.exists_ofInt hty
    exact ⟨x, rfl, Const.setWidth_of_int? hu⟩
  unfold foldUnary at h
  split at h
  · obtain ⟨x, rfl, hx⟩ := hword ht
    rw [pureValue_unary, ← h, hx]
  · obtain ⟨x, rfl, rfl⟩ := hword (w := .w32) ht
    exact h
  · obtain ⟨x, rfl, rfl⟩ := hword (w := .w32) ht
    exact h
  · obtain ⟨x, rfl, hx⟩ := hword (w := .w64) ht
    have hx : c = x := (BitVec.setWidth_eq c).symm.trans hx
    rw [← h, hx]
    rfl
  · cases h

/-- An operation that takes back another one gives its operand. -/
theorem pureValue_of_undoes {inner : Opcode} (h : undoes op inner = true)
    (hu : pureValue f inner [v] = some u) : pureValue f op [u] = some v := by
  unfold undoes at h
  split at h
  · rename_i w o w' o'
    obtain ⟨hw, ho⟩ := Bool.and_eq_true_iff.mp h
    cases eq_of_beq hw
    cases eq_of_beq ho
    simp only [pureValue, Option.bind_eq_bind, Option.bind_eq_some_iff, Option.pure_def,
      Option.some.injEq] at hu
    obtain ⟨x, hx, rfl⟩ := hu
    rw [pureValue_unary, Const.eq_ofInt_of_word? hx]
    cases o <;> simp [IntUnary.apply]
  · cases v <;> cases hu
    exact congrArg (fun z => some (Const.int32 z)) (Const.setWidth_signExtend _)
  · cases v <;> cases hu
    exact congrArg (fun z => some (Const.int32 z)) (BitVec.setWidth_setWidth_of_le _ (by decide))
  · cases h

theorem operands_of_foldUnary (h : foldUnary op c = some r) :
    ∃ t, op.operands = [t] ∧ op.isImmediate = false := by
  unfold foldUnary at h
  split at h <;> first | exact ⟨_, rfl, rfl⟩ | cases h

theorem pure_of_undoes {inner : Opcode} (h : undoes op inner = true) :
    (∃ t, op.operands = [t] ∧ op.isImmediate = false) ∧
      (inner.effect == .pure) = true ∧ inner.isImmediate = false := by
  unfold undoes at h
  split at h <;> first | exact ⟨⟨_, rfl, rfl⟩, rfl, rfl⟩ | cases h

theorem operandList_one (hfit : i.Fits b k) (hop : i.opcode.operands = [t])
    (hx : i.operands.fst = some x) : i.operandList = [x] := by
  have hlen := hfit.operands.length_eq
  have hlist : i.operandList = x :: [i.operands.snd, i.operands.thd].filterMap id := by
    rw [Instr.operandList, Operands.toList, Operands.slots, hx]
    rfl
  rw [hlist, hop] at hlen
  rw [hlist, List.length_eq_zero_iff.mp (Nat.succ.inj hlen)]

theorem operandList_two (hfit : i.Fits b k) (hop : i.opcode.operands = [s, t])
    (hx : i.operands.fst = some x) (hy : i.operands.snd = some y) : i.operandList = [x, y] := by
  have hlen := hfit.operands.length_eq
  have hlist : i.operandList = x :: y :: [i.operands.thd].filterMap id := by
    rw [Instr.operandList, Operands.toList, Operands.slots, hx, hy]
    rfl
  rw [hlist, hop] at hlen
  rw [hlist, List.length_eq_zero_iff.mp (Nat.succ.inj (Nat.succ.inj hlen))]

/-- The operand of an instruction of one operand, and the value of the instruction. -/
theorem ready_one (hready : Ready b env i) (hfit : i.Fits b k) (hops : i.opcode.operands = [t])
    (himm : i.opcode.isImmediate = false) (hx : i.operands.fst = some x) :
    i.operandList = [x] ∧ ∃ u, operand? b env x = some u ∧
      [u].map Const.ty = i.opcode.operands ∧ meaning f b env i = pureValue f i.opcode [u] := by
  have hlist := operandList_one hfit hops hx
  unfold Ready at hready
  rw [hlist, hops] at hready
  obtain ⟨⟨u, hu, rfl⟩, -⟩ := List.forall₂_cons.mp hready
  exact ⟨hlist, u, hu, hops.symm, meaning_one hu hlist rfl himm⟩

theorem not_immediate_of_isIntBinary (h : op.isIntBinary = true) : op.isImmediate = false := by
  revert h
  cases op <;> simp [Opcode.isIntBinary, Opcode.isImmediate]

/-- The operands of an integer operation, and its value. -/
theorem ready_two (hready : Ready b env i) (hfit : i.Fits b k) (hop : i.opcode.isIntBinary = true)
    (hx : i.operands.fst = some x) (hy : i.operands.snd = some y) :
    ∃ u v, operand? b env x = some u ∧ operand? b env y = some v ∧
      [u, v].map Const.ty = i.opcode.operands ∧
      meaning f b env i = pureValue f i.opcode [u, v] := by
  obtain ⟨⟨s, t, hops, -⟩, -⟩ := operands_of_isIntBinary hop
  have hlist := operandList_two hfit hops hx hy
  unfold Ready at hready
  rw [hlist, hops] at hready
  obtain ⟨⟨u, hu, rfl⟩, hrest⟩ := List.forall₂_cons.mp hready
  obtain ⟨⟨v, hv, rfl⟩, -⟩ := List.forall₂_cons.mp hrest
  exact ⟨u, v, hu, hv, hops.symm, meaning_two hu hv hlist rfl (not_immediate_of_isIntBinary hop)⟩

/-- The operands of a selection, and its value. -/
theorem ready_three {c yes no : Handle} (hready : Ready b env i) (hop : i.opcode = .select t)
    (hops : i.operands = ⟨some c, some yes, some no⟩) :
    ∃ (x : BitVec 32) (u v : Const), operand? b env c = some (.int32 x) ∧
      operand? b env yes = some u ∧ operand? b env no = some v ∧
      meaning f b env i = some (if x = 0 then v else u) := by
  unfold Ready at hready
  rw [Instr.operandList, hops, hop] at hready
  obtain ⟨⟨x, hx, hxt⟩, hrest⟩ := List.forall₂_cons.mp hready
  obtain ⟨⟨u, hu, -⟩, hrest⟩ := List.forall₂_cons.mp hrest
  obtain ⟨⟨v, hv, -⟩, -⟩ := List.forall₂_cons.mp hrest
  obtain ⟨x, rfl⟩ := Const.exists_ofInt hxt
  refine ⟨x, u, v, hx, hu, hv, ?_⟩
  have hlist : i.operandList = [c, yes, no] := by rw [Instr.operandList, hops]; rfl
  rw [meaning_of_not_immediate (by rw [hop]; rfl), operands?, hlist, hop]
  simp only [List.mapM_cons, List.mapM_nil, hx, hu, hv, Option.bind_eq_bind, Option.bind_some,
    Option.pure_def]
  exact pureValue_select _ x u v

/-- A sign-extended condition is zero if the condition is. -/
theorem int?_eq_zero {x : BitVec 32} {k : BitVec 64} (h : (Const.int32 x).int? = some k) :
    k = 0 ↔ x = 0 := by
  have hwide : x.signExtend 64 = k := Option.some.inj h
  rw [← hwide]
  constructor
  · intro hzero
    rw [← Const.setWidth_signExtend x, hzero]
    rfl
  · rintro rfl
    rfl

/-- Every rewrite of an instruction that is ready keeps its value. What it takes back has computed
    what it holds. -/
theorem Rewrite.means (h : Rewrite b i p) (hb : b.Validated) (hi : i.check b = .ok ())
    (hready : Ready b env i)
    (hcoh : ∀ x ∈ i.operandList, ∀ j, b.get? x = some j → undoes i.opcode j.opcode = true →
      operand? b env x = meaning f b env j) : p.Means f b env (meaning f b env i) := by
  have hfit := Instr.fits_of_check hi
  cases h with
  | keep => exact ⟨hready, rfl⟩
  | foldUnary hx hc hv =>
    obtain ⟨t, hops, himm⟩ := operands_of_foldUnary hv
    obtain ⟨-, u, hu, ht, hmean⟩ := ready_one (f := f) hready hfit hops himm hx
    refine ⟨ready_const _, (meaning_const _).trans ?_⟩
    rw [hmean, pureValue_of_foldUnary hv (int?_of_constOf? hb hc hu) ht]
  | undo hx hget hundo hy =>
    rename_i x y inner
    obtain ⟨⟨t, hops, himm⟩, -, hinnerImm⟩ := pure_of_undoes hundo
    obtain ⟨hlist, u, hu, -, hmean⟩ := ready_one (f := f) hready hfit hops himm hx
    obtain ⟨s, hinnerOps, -⟩ := operands_of_undoes hundo
    obtain ⟨hlt, hat⟩ := Buffer.get_eq_ok hget
    have hget? : b.get? x = some inner := by
      rw [Buffer.get?, if_pos ((hfit.refers_one hops hx).own), hat]
    -- the operand holds what the inner instruction computes from its own operand
    have hvalue := hcoh x (by rw [hlist]; exact List.mem_singleton_self x) inner hget? hundo
    have hinnerList := operandList_one (hb.fits hat) hinnerOps hy
    rw [hu, meaning_of_not_immediate hinnerImm, operands?, hinnerList] at hvalue
    obtain ⟨args, hargs, hpure⟩ := Option.bind_eq_some_iff.mp hvalue.symm
    cases hv : operand? b env y with
    | none => simp [List.mapM_cons, hv] at hargs
    | some v =>
      obtain rfl : [v] = args := by simpa [List.mapM_cons, hv] using hargs
      show operand? b env y = _
      rw [hmean, hv, pureValue_of_undoes hundo hpure]
  | swap hop hcomm hx hy =>
    obtain ⟨u, v, hu, hv, ht, hmean⟩ := ready_two (f := f) hready hfit hop hx hy
    refine ⟨?_, ?_⟩
    · show List.Forall₂ _ [_, _] i.opcode.operands
      rw [← ty_comm hop hcomm ht]
      exact .cons ⟨v, hv, rfl⟩ (.cons ⟨u, hu, rfl⟩ .nil)
    · rw [hmean, ← pureValue_comm hop hcomm ht]
      exact meaning_two hv hu rfl rfl (not_immediate_of_isIntBinary hop)
  | binary hop hx hy h =>
    obtain ⟨u, v, hu, hv, ht, hmean⟩ := ready_two (f := f) hready hfit hop hx hy
    rw [hmean]
    exact h.means hb hu hv ht
  | swapped hop hcomm hx hy h =>
    obtain ⟨u, v, hu, hv, ht, hmean⟩ := ready_two (f := f) hready hfit hop hx hy
    rw [hmean, ← pureValue_comm hop hcomm ht]
    exact h.means hb hv hu (ty_comm hop hcomm ht)
  | choose hop hops hk =>
    obtain ⟨x, u, v, hx, hu, hv, hmean⟩ := ready_three (f := f) hready hop hops
    have hzero := int?_eq_zero (int?_of_constOf? hb hk hx)
    show operand? b env _ = _
    rw [hmean]
    by_cases hx0 : x = 0
    · rw [if_pos (hzero.mpr hx0), if_pos hx0, hv]
    · rw [if_neg fun h => hx0 (hzero.mp h), if_neg hx0, hu]
  | agree hop hops =>
    obtain ⟨x, u, v, -, hu, hv, hmean⟩ := ready_three (f := f) hready hop hops
    cases hu.symm.trans hv
    show operand? b env _ = _
    rw [hmean, ite_self, hu]

end Simplify

end JitBackend
