import JitBackend.Codegen.Select
import JitBackend.Proofs.Activation

namespace JitBackend.Machine

/-!
# Short instruction sequences

What the few instructions that stand for one operation compute, and what they leave alone.

* `holds_condOf` — conditions after a comparison agree with the relations of linear code;
* `Alters` — what code makes sure of, and the registers that it changes;
* `exec_imul`, `exec_divide`, `exec_compare`, … — one lemma for each sequence.
-/

open State
open Convention (scratch floatScratch)

variable {c : Surroundings} {m : State} {n : Nat} {i : Inst} {r : Reg}

/-! ### Flags -/

theorem slt_of_flags (hn : 0 < n) (a b : BitVec n) :
    ((a - b).msb != a.ssubOverflow b) = a.slt b := by
  have ha := BitVec.toInt_lt (x := a)
  have ha' := BitVec.le_toInt (x := a)
  have hb := BitVec.toInt_lt (x := b)
  have hb' := BitVec.le_toInt (x := b)
  rw [BitVec.msb_eq_toInt, BitVec.slt_eq_decide, BitVec.toInt_sub, BitVec.ssubOverflow]
  obtain ⟨k, rfl⟩ : ∃ k, n = k + 1 := ⟨n - 1, by omega⟩
  simp only [Nat.add_sub_cancel] at *
  generalize a.toInt = x at *
  generalize b.toInt = y at *
  have hp : (0 : Int) < 2 ^ k := Int.pow_pos (by decide)
  have hpow : ((2 ^ (k + 1) : Nat) : Int) = 2 * 2 ^ k := by
    rw [Int.natCast_pow, Int.pow_succ]; simp [Int.mul_comm]
  generalize (2 : Int) ^ k = p at *
  generalize 2 ^ (k + 1) = q at *
  -- the difference wraps around exactly if it does not fit
  have hmod : (x - y).bmod q
      = if x - y ≥ p then x - y - q else if x - y < -p then x - y + q else x - y := by
    split
    · rw [← Int.sub_bmod_right, Int.bmod_eq_of_le (by omega) (by omega)]
    · split
      · rw [← Int.add_bmod_right, Int.bmod_eq_of_le (by omega) (by omega)]
      · rw [Int.bmod_eq_of_le (by omega) (by omega)]
  rw [hmod]
  by_cases h1 : x - y ≥ p
  · have h2 : ¬ (x < y) := by omega
    have h3 : x - y - q < 0 := by omega
    simp [h1, h2, h3]
  · by_cases h2 : x - y < -p
    · have h3 : ¬ (x - y + q < 0) := by omega
      have h4 : x < y := by omega
      simp [h1, h2, h3, h4]
    · have h3 : (x - y < 0) ↔ x < y := by omega
      simp [h1, h2, h3]

theorem sub_beq_zero (a b : BitVec n) : (a - b == 0) = (a == b) := by
  rw [Bool.eq_iff_iff, beq_iff_eq, beq_iff_eq, BitVec.sub_eq_iff_eq_add]
  simp

/-- Conditions after a subtraction agree with the comparisons. -/
theorem holds_condOf (hn : 0 < n) (rel : IntRel) (a b : BitVec n) :
    (Gen.condOf rel).holds (.ofSub a b) = rel.holds a b := by
  have hlt := slt_of_flags hn a b
  have heq := sub_beq_zero a b
  have hgt : b.slt a = !a.sle b := by rw [BitVec.sle_eq_not_slt, Bool.not_not]
  have hule : a.ule b = (a.ult b || a == b) := by
    rw [BitVec.ule_eq_decide, BitVec.ult_eq_decide, Bool.eq_iff_iff]
    simp only [decide_eq_true_eq, Bool.or_eq_true, beq_iff_eq, ← BitVec.toNat_inj]
    omega
  have hugt : b.ult a = !a.ule b := by rw [BitVec.ule_eq_not_ult, Bool.not_not]
  cases rel with
  | eq => exact heq
  | lt => exact hlt
  | gt =>
    show (!(a - b == 0) && (a - b).msb == a.ssubOverflow b) = b.slt a
    rw [hgt, BitVec.sle_eq_slt_or_eq, ← hlt, heq]
    cases a == b <;> cases (a - b).msb <;> cases a.ssubOverflow b <;> rfl
  | le =>
    show ((a - b == 0) || (a - b).msb != a.ssubOverflow b) = a.sle b
    rw [BitVec.sle_eq_slt_or_eq, hlt, heq, Bool.or_comm]
  | ge =>
    show ((a - b).msb == a.ssubOverflow b) = b.sle a
    rw [BitVec.sle_eq_not_slt, ← hlt]
    cases (a - b).msb <;> cases a.ssubOverflow b <;> rfl
  | ltu => rfl
  | gtu =>
    show (!a.ult b && !(a - b == 0)) = b.ult a
    rw [hugt, hule, heq, Bool.not_or]
  | leu =>
    show (a.ult b || (a - b == 0)) = a.ule b
    rw [hule, heq]
  | geu => exact (BitVec.ule_eq_not_ult b a).symm

/-! ### Integers -/

theorem State.SameBut.setWord (hr : r.IsGeneral) (w : Width) (v : BitVec w.bits) :
    SameBut [r] m (m.setWord w r.toGpr v) :=
  .setGpr hr _

theorem State.word_setWord_of_ne {q : Reg} (hr : r.IsGeneral) (hq : q.IsGeneral) (h : q ≠ r)
    (w w' : Width) (v : BitVec w.bits) :
    (m.setWord w r.toGpr v).word w' q.toGpr = m.word w' q.toGpr := by
  rw [State.word, State.setWord, State.gpr_setGpr_of_ne fun he => h ((Reg.toGpr_inj hq hr).mp he),
    State.word]

/-- Two changes of one register. -/
theorem State.SameBut.again {m' m'' : State} (h : SameBut [r] m m') (h' : SameBut [r] m' m'') :
    SameBut [r] m m'' :=
  (h.trans h').mono (by simp)

/-- The code runs to its end, changes only the registers `rs`, and makes sure of `Q`. -/
abbrev Alters (c : Surroundings) (m : State) (is : List Inst) (rs : List Reg) (Q : State → Prop) :
    Prop :=
  ∃ m', execAll c m is = some m' ∧ SameBut rs m m' ∧ Q m'

theorem Alters.mono {is : List Inst} {rs qs : List Reg} {P Q : State → Prop}
    (h : Alters c m is rs P) (hsub : ∀ r ∈ rs, r ∈ qs) (hPQ : ∀ m', P m' → Q m') :
    Alters c m is qs Q := by
  obtain ⟨m', hexec, hsame, hP⟩ := h
  exact ⟨m', hexec, hsame.mono hsub, hPQ m' hP⟩

theorem execAll_cons {is : List Inst} {m' : State} (h : exec c m i = some m') :
    execAll c m (i :: is) = execAll c m' is := by
  rw [execAll, h]; rfl

variable {rd ra rb : Reg}

theorem execAlu_of_ne {op : AluOp} (hop : op ≠ .cmp) (w : Width) (dst : Gpr) (b : BitVec w.bits) :
    execAlu op w dst b m = (m.setWord w dst (op.apply (m.word w dst) b)).withFlags none :=
  if_neg hop

/-- A word is copied, and an instruction replaces the copy. -/
theorem exec_onCopy (hrd : rd.IsGeneral) {w : Width} {v : BitVec w.bits}
    (hi : exec c (m.setWord w rd.toGpr (m.word w ra.toGpr)) i
      = some (((m.setWord w rd.toGpr (m.word w ra.toGpr)).setWord w rd.toGpr v).withFlags none)) :
    Alters c m [.mov w rd.toGpr ra.toGpr, i] [rd] fun m' => m'.word w rd.toGpr = v := by
  refine ⟨_, (execAll_cons rfl).trans (execAll_cons hi), ?_, word_setWord_self ..⟩
  exact ((SameBut.setWord hrd w _).again (.setWord hrd w _)).withFlags none

theorem exec_imul (hrd : rd.IsGeneral) (hrb : rb.IsGeneral) (hne : rb ≠ rd) (w : Width) :
    Alters c m [.mov w rd.toGpr ra.toGpr, .imul w rd.toGpr rb.toGpr] [rd] fun m' =>
      m'.word w rd.toGpr = m.word w ra.toGpr * m.word w rb.toGpr := by
  refine exec_onCopy hrd ?_
  rw [exec, word_setWord_self, word_setWord_of_ne hrd hrb hne]

theorem exec_imulImm (hrd : rd.IsGeneral) (w : Width) (k : BitVec 32) :
    Alters c m [.imulImm w rd.toGpr ra.toGpr k] [rd] fun m' =>
      m'.word w rd.toGpr = m.word w ra.toGpr * k.signExtend w.bits :=
  ⟨_, rfl, (SameBut.setWord hrd w _).withFlags none, word_setWord_self ..⟩

theorem exec_unary (hrd : rd.IsGeneral) (op : IntUnary) (w : Width) :
    Alters c m [.mov w rd.toGpr ra.toGpr, .unary op w rd.toGpr] [rd] fun m' =>
      m'.word w rd.toGpr = op.apply (m.word w ra.toGpr) := by
  refine exec_onCopy hrd ?_
  rw [exec, word_setWord_self]

/-- Only the count modulo the width matters for a shift. -/
theorem shift_congr {p q : Nat} (op : ShiftOp) (a : BitVec n) {x : BitVec p} {y : BitVec q}
    (h : x.toNat % n = y.toNat % n) : op.apply a x = op.apply a y := by
  cases op <;> simp only [ShiftOp.apply, h]

theorem exec_shiftImm (hrd : rd.IsGeneral) (op : ShiftOp) (w : Width) (k : BitVec 32)
    {amount : BitVec 6} (hk : amount.toNat % w.bits = k.toNat % w.bits) :
    Alters c m [.mov w rd.toGpr ra.toGpr, .shiftImm op w rd.toGpr amount] [rd] fun m' =>
      m'.word w rd.toGpr = op.apply (m.word w ra.toGpr) k := by
  refine exec_onCopy hrd ?_
  rw [exec, word_setWord_self, shift_congr op _ hk]

theorem exec_shiftCl (hrd : rd.IsGeneral) (hne : rd ≠ .rcx) (op : ShiftOp) (w : Width)
    {k : BitVec 32} (hk : m.word .w32 .rcx = k) :
    Alters c m [.mov w rd.toGpr ra.toGpr, .shiftCl op w rd.toGpr] [rd] fun m' =>
      m'.word w rd.toGpr = op.apply (m.word w ra.toGpr) k := by
  have hrcx : (m.setWord w rd.toGpr (m.word w ra.toGpr)).gpr .rcx = m.gpr .rcx := by
    refine gpr_setGpr_of_ne (fun he => hne ?_) _
    exact ((Reg.toGpr_inj (by decide) hrd).mp (show Reg.rcx.toGpr = rd.toGpr from he)).symm
  have hcount : ((m.gpr .rcx).setWidth 8).toNat % w.bits = k.toNat % w.bits := by
    have hlow : k.toNat = (m.gpr .rcx).toNat % 2 ^ 32 := by
      rw [← hk]; exact BitVec.toNat_setWidth ..
    rw [BitVec.toNat_setWidth, hlow]
    cases w <;> simp only [Width.bits] <;> omega
  refine exec_onCopy hrd ?_
  rw [exec, word_setWord_self, hrcx, shift_congr op _ hcount]

/-! ### Division -/

/-- Sign extension to twice the width. -/
theorem toInt_extended (hn : 0 < n) (x : BitVec n) :
    (x.sshiftRight (n - 1) ++ x).toInt = x.toInt := by
  obtain ⟨k, rfl⟩ : ∃ k, n = k + 1 := ⟨n - 1, by omega⟩
  have h1 := BitVec.toInt_lt (x := x)
  have h2 := BitVec.le_toInt (x := x)
  have h3 := BitVec.toInt_eq_toNat_cond x
  have h4 := x.isLt
  rw [BitVec.toInt_append, BitVec.toInt_sshiftRight, Int.shiftRight_eq_div_pow]
  simp only [Nat.add_sub_cancel, Nat.add_eq_zero_iff, Nat.one_ne_zero, and_false, beq_iff_eq,
    if_false] at *
  have hpow : (2 : Int) ^ (k + 1) = 2 * 2 ^ k := by rw [Int.pow_succ, Int.mul_comm]
  have hcast : ((2 ^ k : Nat) : Int) = 2 ^ k := by rw [Int.natCast_pow]; rfl
  have hcast' : ((2 ^ (k + 1) : Nat) : Int) = 2 * 2 ^ k := by rw [Int.natCast_pow]; exact hpow
  have hpos : (0 : Int) < 2 ^ k := Int.pow_pos (by decide)
  rw [hcast, hpow]
  -- the upper half is zero or minus one
  by_cases hneg : x.toInt < 0
  · have hdiv : x.toInt / 2 ^ k = -1 := by
      refine ((Int.ediv_emod_unique (a := x.toInt) (q := -1) (r := x.toInt + 2 ^ k) hpos).mpr ?_).1
      exact ⟨by omega, by omega, by omega⟩
    rw [hdiv]
    split at h3 <;> omega
  · have hdiv : x.toInt / 2 ^ k = 0 := Int.ediv_eq_zero_of_lt (by omega) h1
    rw [hdiv]
    split at h3 <;> omega

section

variable {w : Width} {divisor : Gpr} {x y : BitVec w.bits} (hrax : m.word w .rax = x)
  (hrdx : m.word w .rdx = x.sshiftRight (w.bits - 1)) (hy : m.word w divisor = y)

include hrax hrdx hy

/-- Division of a sign-extended word has the quotient and the remainder of linear code. -/
theorem execDiv_eq (htrap : IntOp.divTraps x y = false) : execDiv w divisor m
      = some (((m.setWord w .rax (x.sdiv y)).setWord w .rdx (x.srem y)).withFlags none) := by
  have hbits : 0 < w.bits := by cases w <;> decide
  simp only [IntOp.divTraps, Bool.or_eq_false_iff, Bool.and_eq_false_iff, beq_eq_false_iff_ne] at htrap
  obtain ⟨hzero, hover⟩ := htrap
  have hq : (x.sdiv y).toInt = x.toInt.tdiv y.toInt := by
    refine BitVec.toInt_sdiv_of_ne_or_ne x y (hover.imp_right fun h => ?_)
    rwa [BitVec.neg_one_eq_allOnes]
  have hr : (x.srem y).toInt = x.toInt.tmod y.toInt := BitVec.toInt_srem x y
  have hlo := BitVec.le_toInt (x := x.sdiv y)
  have hhi := BitVec.toInt_lt (x := x.sdiv y)
  have hb : y.toInt ≠ 0 := fun h => hzero (BitVec.eq_of_toInt_eq (by rw [h, BitVec.toInt_zero]))
  simp only [execDiv, hrax, hrdx, hy, toInt_extended hbits]
  rw [← hq, ← hr, BitVec.ofInt_toInt, BitVec.ofInt_toInt, if_neg]
  rintro (h | h | h)
  · exact hb h
  · omega
  · omega

/-- A division traps where linear code has no quotient. -/
theorem execDiv_eq_none (htrap : IntOp.divTraps x y = true) : execDiv w divisor m = none := by
  have hbits : 0 < w.bits := by cases w <;> decide
  simp only [execDiv, hrax, hrdx, hy, toInt_extended hbits]
  rw [if_pos]
  simp only [IntOp.divTraps, Bool.or_eq_true, Bool.and_eq_true, beq_iff_eq] at htrap
  rcases htrap with rfl | ⟨rfl, rfl⟩
  · exact .inl BitVec.toInt_zero
  · -- the quotient of the least number and minus one is one too large
    right; right
    cases w <;> decide

end

/-- The two instructions before a division extend the dividend over both registers. -/
theorem execAll_divide (hrb : rb.IsGeneral) (hnax : rb ≠ .rax) (hndx : rb ≠ .rdx) (w : Width)
    {x y : BitVec w.bits} (hx : m.word w ra.toGpr = x) (hy : m.word w rb.toGpr = y) :
    ∃ m', execAll c m [.mov w Reg.rax.toGpr ra.toGpr, .signExtend w, .idiv w rb.toGpr]
        = execDiv w rb.toGpr m' ∧ SameBut [.rax, .rdx] m m' ∧ m'.word w .rax = x ∧
      m'.word w .rdx = x.sshiftRight (w.bits - 1) ∧ m'.word w rb.toGpr = y := by
  have hax : Reg.rax.IsGeneral := by decide
  have hdx : Reg.rdx.IsGeneral := by decide
  let m1 := m.setWord w Reg.rax.toGpr (m.word w ra.toGpr)
  let m2 := m1.setWord w Reg.rdx.toGpr ((m1.word w Reg.rax.toGpr).sshiftRight (w.bits - 1))
  have h1 : m1.word w Reg.rax.toGpr = x := (word_setWord_self ..).trans hx
  refine ⟨m2, ?_, ?_, ?_, ?_, ?_⟩
  · show (execDiv w rb.toGpr m2).bind some = _
    exact Option.bind_fun_some _
  · have h := (SameBut.setWord (m := m) hax w (m.word w ra.toGpr)).trans
      (.setWord hdx w ((m1.word w Reg.rax.toGpr).sshiftRight (w.bits - 1)))
    exact h.mono (by simp)
  · exact (word_setWord_of_ne hdx hax (by decide) w w _).trans h1
  · exact (word_setWord_self ..).trans (by rw [h1])
  · rw [word_setWord_of_ne hdx hrb hndx, word_setWord_of_ne hax hrb hnax, hy]

theorem exec_divide (hrb : rb.IsGeneral) (hnax : rb ≠ .rax) (hndx : rb ≠ .rdx) (w : Width)
    {x y : BitVec w.bits} (hx : m.word w ra.toGpr = x) (hy : m.word w rb.toGpr = y)
    (htrap : IntOp.divTraps x y = false) :
    Alters c m [.mov w Reg.rax.toGpr ra.toGpr, .signExtend w, .idiv w rb.toGpr] [.rax, .rdx]
      fun m' => m'.word w Reg.rax.toGpr = x.sdiv y ∧ m'.word w Reg.rdx.toGpr = x.srem y := by
  have hax : Reg.rax.IsGeneral := by decide
  have hdx : Reg.rdx.IsGeneral := by decide
  obtain ⟨m2, hexec, hsame, hrax, hrdx, hdiv⟩ :=
    execAll_divide (c := c) hrb hnax hndx w hx hy
  refine ⟨((m2.setWord w Reg.rax.toGpr (x.sdiv y)).setWord w Reg.rdx.toGpr (x.srem y)).withFlags
    none, hexec.trans (execDiv_eq hrax hrdx hdiv htrap), ?_, ?_, ?_⟩
  · refine SameBut.withFlags ?_ none
    have h := (hsame.trans (.setWord hax w (x.sdiv y))).trans (.setWord hdx w (x.srem y))
    exact h.mono (by simp)
  · have hkeep := word_setWord_of_ne (m := m2.setWord w Reg.rax.toGpr (x.sdiv y)) hdx hax
      (by decide) w w (x.srem y)
    exact hkeep.trans (word_setWord_self m2 w Reg.rax.toGpr (x.sdiv y))
  · exact word_setWord_self ..

/-! ### Conditions as values -/

theorem setWidth_setByte (r : BitVec 64) (v : BitVec 8) : (setByte r v).setWidth 8 = v := by
  apply BitVec.eq_of_getLsbD_eq
  intro i hi
  have h255 : (255 : BitVec 64).getLsbD i = true := by
    have : ∀ j < 8, (255 : BitVec 64).getLsbD j = true := by decide
    exact this i hi
  simp only [setByte, BitVec.getLsbD_setWidth, BitVec.getLsbD_or, BitVec.getLsbD_and,
    BitVec.getLsbD_not, hi, h255, decide_true, Bool.true_and, Bool.not_true, Bool.and_false,
    Bool.false_or, show i < 64 by omega]

/-- The low byte of a register is one or zero. -/
def State.HasByte (m : State) (r : Reg) (b : Bool) : Prop :=
  (m.gpr r.toGpr).setWidth 8 = if b then 1 else 0

section

variable (hrd : rd.IsGeneral)

include hrd

theorem exec_setcc {f : Flags} (hf : m.flags = some f) (cond : Cond) :
    ∃ m', exec c m (.setcc cond rd.toGpr) = some m' ∧ SameBut [rd] m m' ∧
      m'.HasByte rd (cond.holds f) ∧ m'.flags = some f := by
  refine ⟨m.setGpr rd.toGpr (setByte (m.gpr rd.toGpr) (if cond.holds f then 1 else 0)), ?_,
    .setGpr hrd _, ?_, hf⟩
  · simp only [exec, hf]; rfl
  · rw [HasByte, gpr_setGpr_self, setWidth_setByte]

theorem exec_movzxByte {b : Bool} (hb : m.HasByte rd b) :
    Alters c m [.movzxByte rd.toGpr rd.toGpr] [rd] fun m' => m'.Holds rd (.ofBool b) := by
  refine ⟨_, rfl, .setGpr hrd _, ?_⟩
  show BitVec.setWidth 32 (State.gpr (State.setGpr _ _ _) rd.toGpr) = _
  rw [gpr_setGpr_self, hb]
  cases b <;> rfl

theorem exec_andByte {q : Reg} {a b : Bool} (ha : m.HasByte rd a) (hb : m.HasByte q b) :
    ∃ m', exec c m (.andByte rd.toGpr q.toGpr) = some m' ∧ SameBut [rd] m m' ∧
      m'.HasByte rd (a && b) := by
  refine ⟨_, rfl, (SameBut.setGpr hrd _).withFlags none, ?_⟩
  show BitVec.setWidth 8 (State.gpr (State.setGpr _ _ _) rd.toGpr) = _
  rw [gpr_setGpr_self, setWidth_setByte, BitVec.setWidth_and, ha, hb]
  cases a <;> cases b <;> rfl

/-- A condition becomes a value. -/
theorem exec_condition {f : Flags} (hf : m.flags = some f) (cond : Cond) :
    Alters c m [.setcc cond rd.toGpr, .movzxByte rd.toGpr rd.toGpr] [rd] fun m' =>
      m'.Holds rd (.ofBool (cond.holds f)) := by
  obtain ⟨m1, h1, hsame1, hbyte, -⟩ := exec_setcc (c := c) hrd hf cond
  obtain ⟨m2, h2, hsame2, hholds⟩ := exec_movzxByte (c := c) hrd hbyte
  exact ⟨m2, by rw [execAll_cons h1, h2], hsame1.again hsame2, hholds⟩

/-- A comparison becomes a value, whatever instruction compares. -/
theorem exec_compare (rel : IntRel) {w : Width} {a b : BitVec w.bits}
    (hi : exec c m i = some (m.withFlags (some (.ofSub a b)))) :
    Alters c m [i, .setcc (Gen.condOf rel) rd.toGpr, .movzxByte rd.toGpr rd.toGpr] [rd] fun m' =>
      m'.Holds rd (.ofBool (rel.holds a b)) := by
  have hbits : 0 < w.bits := by cases w <;> decide
  obtain ⟨m', hexec, hsame, hholds⟩ := exec_condition (c := c) hrd
    (m := m.withFlags (some (.ofSub a b))) rfl (Gen.condOf rel)
  rw [holds_condOf hbits] at hholds
  exact ⟨m', (execAll_cons hi).trans hexec, ((SameBut.refl m).withFlags _).trans hsame, hholds⟩

end

/-! ### Floats -/

theorem exec_floatArith (ra : Reg) (hrd : rd.IsXmm) (hrb : rb.IsXmm) (hne : rb ≠ rd) (op : FloatOp)
    (s : FloatSize) :
    Alters c m [.movaps rd.toXmm ra.toXmm, .floatArith op s rd.toXmm rb.toXmm] [rd] fun m' =>
      m'.lane s rd.toXmm = c.float.arith op s (m.lane s ra.toXmm) (m.lane s rb.toXmm) := by
  refine ⟨_, rfl, (SameBut.setXmm hrd _).again (.setXmm hrd _), (lane_setLane_self ..).trans ?_⟩
  have hra : (m.setXmm rd.toXmm (m.xmm ra.toXmm)).lane s rd.toXmm = m.lane s ra.toXmm := by
    rw [State.lane, xmm_setXmm_self, State.lane]
  have hrb' : (m.setXmm rd.toXmm (m.xmm ra.toXmm)).lane s rb.toXmm = m.lane s rb.toXmm := by
    rw [State.lane, xmm_setXmm_of_ne (fun he => hne ((Reg.toXmm_inj hrb hrd).mp he)), State.lane]
  rw [hra, hrb']

/-- The code that puts the mask of the sign bit into the scratch registers. -/
def signMaskInsts : FloatSize → List Inst
  | .double => [.movImm64 scratch.toGpr (BitVec.intMin 64),
      .movBits .w64 floatScratch.toXmm scratch.toGpr]
  | .single => [.movImm32 scratch.toGpr (BitVec.intMin 32),
      .movBits .w32 floatScratch.toXmm scratch.toGpr]

theorem exec_signMask (s : FloatSize) :
    Alters c m (signMaskInsts s) [scratch, floatScratch] fun m' =>
      m'.lane s floatScratch.toXmm = BitVec.intMin s.bits := by
  have hg : scratch.IsGeneral := by decide
  have hx : floatScratch.IsXmm := by decide
  cases s with
  | double =>
    refine ⟨_, rfl, (SameBut.setGpr hg _).trans (.setXmm hx _), ?_⟩
    show BitVec.setWidth 64 (State.xmm (State.setXmm _ _ _) _) = _
    rw [xmm_setXmm_self]
    simp [State.word, Width.bits]
    rfl
  | single =>
    refine ⟨_, rfl, (SameBut.setGpr hg _).trans (.setXmm hx _), ?_⟩
    show BitVec.setWidth 32 (State.xmm (State.setXmm _ _ _) _) = _
    rw [xmm_setXmm_self, BitVec.setWidth_setWidth_of_le _ (by decide)]
    exact (BitVec.setWidth_eq _).trans (word_setWord_self m .w32 _ _)

theorem exec_floatNeg (ra : Reg) (hrd : rd.IsXmm) (hne : rd ≠ floatScratch) (s : FloatSize) :
    Alters c m (.movaps rd.toXmm ra.toXmm :: (signMaskInsts s ++
        [.xorps rd.toXmm floatScratch.toXmm]))
      [rd, scratch, floatScratch] fun m' =>
      m'.lane s rd.toXmm = m.lane s ra.toXmm ^^^ BitVec.intMin s.bits := by
  obtain ⟨m1, h1, hsame1, hmask⟩ := exec_signMask (c := c) s
    (m := m.setXmm rd.toXmm (m.xmm ra.toXmm))
  refine ⟨m1.setXmm rd.toXmm (m1.xmm rd.toXmm ^^^ m1.xmm floatScratch.toXmm), ?_, ?_, ?_⟩
  · rw [execAll_cons rfl, execAll_append, h1]; rfl
  · have h := ((SameBut.setXmm (m := m) hrd (m.xmm ra.toXmm)).trans hsame1).trans
      (.setXmm hrd (m1.xmm rd.toXmm ^^^ m1.xmm floatScratch.toXmm))
    exact h.mono (by simp)
  · have hrdx : m1.xmm rd.toXmm = m.xmm ra.toXmm := by
      rw [hsame1.xmm rd hrd (by
        simp only [List.mem_cons, List.not_mem_nil, or_false, not_or]
        exact ⟨(by rintro rfl; cases hrd.1), hne⟩), xmm_setXmm_self]
    show State.lane _ s rd.toXmm = _
    rw [← hmask, State.lane, xmm_setXmm_self, BitVec.setWidth_xor, hrdx]
    rfl

/-- Conditions after a comparison of floats. -/
theorem holds_ofOrder (o : FloatOrder) :
    (Cond.e.holds (.ofOrder o) && Cond.np.holds (.ofOrder o)) = FloatRel.eq.holds o ∧
      Cond.a.holds (.ofOrder o) = FloatRel.gt.holds o ∧
      Cond.ae.holds (.ofOrder o) = FloatRel.ge.holds o ∧
      Cond.a.holds (.ofOrder o.swap) = FloatRel.lt.holds o ∧
      Cond.ae.holds (.ofOrder o.swap) = FloatRel.le.holds o := by
  cases o <;> decide

/-- The code that compares floats. -/
def floatRelInsts (rel : FloatRel) (s : FloatSize) (rd ra rb : Reg) : List Inst :=
  match rel with
  | .eq => [.ucomis s ra.toXmm rb.toXmm, .setcc .e rd.toGpr, .setcc .np scratch.toGpr,
      .andByte rd.toGpr scratch.toGpr]
  | .gt => [.ucomis s ra.toXmm rb.toXmm, .setcc .a rd.toGpr]
  | .ge => [.ucomis s ra.toXmm rb.toXmm, .setcc .ae rd.toGpr]
  | .lt => [.ucomis s rb.toXmm ra.toXmm, .setcc .a rd.toGpr]
  | .le => [.ucomis s rb.toXmm ra.toXmm, .setcc .ae rd.toGpr]

theorem exec_floatRel (ra rb : Reg) (hrd : rd.IsGeneral) (hne : rd ≠ scratch) (rel : FloatRel)
    (s : FloatSize) :
    Alters c m (floatRelInsts rel s rd ra rb) [rd, scratch] fun m' =>
      m'.HasByte rd (rel.holds (c.float.order s (m.lane s ra.toXmm) (m.lane s rb.toXmm))) := by
  have hg : scratch.IsGeneral := by decide
  have hsub : ∀ r ∈ [rd], r ∈ [rd, scratch] := by simp
  obtain ⟨heq, hgt, hge, hlt, hle⟩ :=
    holds_ofOrder (c.float.order s (m.lane s ra.toXmm) (m.lane s rb.toXmm))
  rw [← c.float.order_swap] at hlt hle
  -- all but equality are a comparison and one condition
  have hone : ∀ (cond : Cond) (p q : Reg), Alters c m [.ucomis s p.toXmm q.toXmm,
      .setcc cond rd.toGpr] [rd, scratch] fun m' =>
        m'.HasByte rd (cond.holds (.ofOrder (c.float.order s (m.lane s p.toXmm)
          (m.lane s q.toXmm)))) ∧
        m'.flags = some (.ofOrder (c.float.order s (m.lane s p.toXmm) (m.lane s q.toXmm))) := by
    intro cond p q
    obtain ⟨m', h, hsame, hbyte, hflags⟩ := exec_setcc (c := c) hrd (m := m.withFlags (some
      (.ofOrder (c.float.order s (m.lane s p.toXmm) (m.lane s q.toXmm))))) rfl cond
    refine ⟨m', ?_, (((SameBut.refl m).withFlags _).trans hsame).mono hsub, hbyte, hflags⟩
    rw [execAll_cons rfl, execAll_cons h]; rfl
  cases rel with
  | eq =>
    obtain ⟨m1, h1, hsame1, hbyte1, hflags1⟩ := hone .e ra rb
    obtain ⟨m2, h2, hsame2, hbyte2, -⟩ := exec_setcc (c := c) hg hflags1 .np
    rw [State.HasByte, ← hsame2.gpr rd hrd (by simpa using hne)] at hbyte1
    obtain ⟨m3, h3, hsame3, hbyte3⟩ := exec_andByte (c := c) hrd hbyte1 hbyte2
    refine ⟨m3, ?_, ((hsame1.trans hsame2).trans hsame3).mono (by simp), heq ▸ hbyte3⟩
    show execAll c m ([.ucomis s ra.toXmm rb.toXmm, .setcc .e rd.toGpr]
      ++ [.setcc .np scratch.toGpr, .andByte rd.toGpr scratch.toGpr]) = _
    rw [execAll_append, h1, Option.bind_some, execAll_cons h2, execAll_cons h3]
    rfl
  | gt => exact (hone .a ra rb).mono (fun _ => id) fun _ h => hgt ▸ h.1
  | ge => exact (hone .ae ra rb).mono (fun _ => id) fun _ h => hge ▸ h.1
  | lt => exact (hone .a rb ra).mono (fun _ => id) fun _ h => hlt ▸ h.1
  | le => exact (hone .ae rb ra).mono (fun _ => id) fun _ h => hle ▸ h.1

theorem exec_floatCompare (ra rb : Reg) (hrd : rd.IsGeneral) (hne : rd ≠ scratch) (rel : FloatRel)
    (s : FloatSize) :
    Alters c m (floatRelInsts rel s rd ra rb ++ [.movzxByte rd.toGpr rd.toGpr])
      [rd, scratch] fun m' => m'.Holds rd
        (.ofBool (rel.holds (c.float.order s (m.lane s ra.toXmm) (m.lane s rb.toXmm)))) := by
  obtain ⟨m1, h1, hsame1, hbyte⟩ := exec_floatRel (c := c) (m := m) ra rb hrd hne
    rel s
  obtain ⟨m2, h2, hsame2, hholds⟩ := exec_movzxByte (c := c) hrd hbyte
  refine ⟨m2, by rw [execAll_append, h1]; exact h2, (hsame1.trans hsame2).mono (by simp), hholds⟩

/-! ### Conversions and selection -/

/-- The code that makes a float of a signed integer. -/
def signedToFloatInsts (s : FloatSize) (w : Width) (rd ra : Reg) : List Inst :=
  [.xorps rd.toXmm rd.toXmm, .intToFloat s w rd.toXmm ra.toGpr]

/-- The code of a conversion. -/
def convertInsts (conv : Conversion) (rd ra : Reg) : List Inst :=
  match conv with
  | .i2q => [.movsxd rd.toGpr ra.toGpr]
  | .ui2uq | .q2i => [.mov .w32 rd.toGpr ra.toGpr]
  | .i2d => signedToFloatInsts .double .w32 rd ra
  | .q2d => signedToFloatInsts .double .w64 rd ra
  | .i2f => signedToFloatInsts .single .w32 rd ra
  | .ui2d => .mov .w32 scratch.toGpr ra.toGpr
      :: signedToFloatInsts .double .w64 rd scratch
  | .ui2f => .mov .w32 scratch.toGpr ra.toGpr
      :: signedToFloatInsts .single .w64 rd scratch
  | .d2i => [.floatToInt .w32 .double rd.toGpr ra.toXmm]
  | .d2q => [.floatToInt .w64 .double rd.toGpr ra.toXmm]
  | .f2i => [.floatToInt .w32 .single rd.toGpr ra.toXmm]
  | .f2d => [.resize .double rd.toXmm ra.toXmm]
  | .d2f => [.resize .single rd.toXmm ra.toXmm]

theorem exec_signedToFloat (ra : Reg) (hrd : rd.IsXmm) (s : FloatSize) (w : Width) :
    Alters c m (signedToFloatInsts s w rd ra) [rd] fun m' =>
      m'.Holds rd (.ofPattern s (c.float.ofInt s w (m.word w ra.toGpr))) :=
  ⟨_, rfl, (SameBut.setXmm hrd _).again (.setXmm hrd _),
    holds_ofPattern.mpr (lane_setLane_self ..)⟩

theorem exec_unsignedToFloat (ra : Reg) (hrd : rd.IsXmm) (s : FloatSize) :
    Alters c m (.mov .w32 scratch.toGpr ra.toGpr
        :: signedToFloatInsts s .w64 rd scratch) [rd, scratch] fun m' =>
      m'.Holds rd (.ofPattern s (c.float.ofInt s .w64 ((m.word .w32 ra.toGpr).setWidth 64))) := by
  have hg : scratch.IsGeneral := by decide
  obtain ⟨m', h, hsame, hholds⟩ := exec_signedToFloat (c := c)
    (m := m.setWord .w32 scratch.toGpr (m.word .w32 ra.toGpr)) scratch hrd s .w64
  refine ⟨m', (execAll_cons rfl).trans h, ((SameBut.setWord hg .w32 _).trans hsame).mono (by simp),
    ?_⟩
  rw [show State.word _ .w64 scratch.toGpr = (m.word .w32 ra.toGpr).setWidth 64 from ?_]
    at hholds
  · exact hholds
  · rw [State.word, State.setWord, gpr_setGpr_self]
    exact BitVec.setWidth_eq _

theorem exec_convert {conv : Conversion} {v k : Const}
    (hrd : if conv.target.isFloat then rd.IsXmm else rd.IsGeneral) (hv : m.Holds ra v)
    (hk : Interp.convertValue c.float conv v = some k) :
    Alters c m (convertInsts conv rd ra) [rd, scratch] fun m' => m'.Holds rd k := by
  have hsub : ∀ r ∈ [rd], r ∈ [rd, scratch] := by simp
  -- conversions by a single instruction that writes all of the register
  have hgpr : ∀ {i : Inst} {x : BitVec 64}, rd.IsGeneral → exec c m i = some (m.setGpr rd.toGpr x) →
      (m.setGpr rd.toGpr x).Holds rd k →
      Alters c m [i] [rd, scratch] fun m' => m'.Holds rd k := fun hg he hh =>
    ⟨_, execAll_cons he, (SameBut.setGpr hg _).mono hsub, hh⟩
  have hword : ∀ {i : Inst} {w : Width} {x : BitVec w.bits}, rd.IsGeneral →
      exec c m i = some (m.setWord w rd.toGpr x) → k = .ofInt w x →
      Alters c m [i] [rd, scratch] fun m' => m'.Holds rd k :=
    fun hg he hk => ⟨_, execAll_cons he, (SameBut.setWord hg _ _).mono hsub,
      hk ▸ holds_ofInt.mpr (word_setWord_self ..)⟩
  have hlane : ∀ {i : Inst} {s : FloatSize} {x : BitVec s.bits}, rd.IsXmm →
      exec c m i = some (m.setLane s rd.toXmm x) → k = .ofPattern s x →
      Alters c m [i] [rd, scratch] fun m' => m'.Holds rd k :=
    fun hx he hk => ⟨_, execAll_cons he, (SameBut.setXmm hx _).mono hsub,
      hk ▸ holds_ofPattern.mpr (lane_setLane_self ..)⟩
  have hsigned : ∀ (s : FloatSize) (w : Width), rd.IsXmm →
      k = .ofPattern s (c.float.ofInt s w (m.word w ra.toGpr)) →
      Alters c m (signedToFloatInsts s w rd ra) [rd, scratch] fun m' => m'.Holds rd k :=
    fun s w hx hk => (exec_signedToFloat ra hx s w).mono hsub fun _ h => hk ▸ h
  have hfull : m.word .w64 ra.toGpr = m.gpr ra.toGpr := BitVec.setWidth_eq _
  cases conv <;> cases v <;> cases hk <;> cases hv
  case i2q => exact hgpr hrd rfl (gpr_setGpr_self ..)
  case ui2uq => exact hgpr hrd rfl (gpr_setGpr_self ..)
  case q2i => exact hword (w := .w32) hrd rfl rfl
  case i2d => exact hsigned .double .w32 hrd rfl
  case ui2d => exact exec_unsignedToFloat ra hrd .double
  case q2d =>
    exact hsigned .double .w64 hrd
      (congrArg (fun x => Const.float64 (c.float.ofInt .double .w64 x)) hfull.symm)
  case d2i => exact hword (w := .w32) hrd rfl rfl
  case d2q => exact hword (w := .w64) hrd rfl rfl
  case i2f => exact hsigned .single .w32 hrd rfl
  case ui2f => exact exec_unsignedToFloat ra hrd .single
  case f2d => exact hlane (s := .double) hrd rfl rfl
  case d2f => exact hlane (s := .single) hrd rfl rfl
  case f2i => exact hword (w := .w32) hrd rfl rfl

/-- Flags after the test of a word, as a condition of a branch. -/
theorem zero_ofAnd (x : BitVec n) : (Flags.ofAnd x x).zero = (x == 0) := by
  rw [Flags.ofAnd, BitVec.and_self]

theorem exec_select (no : Reg) (hrd : rd.IsGeneral) {rc yes : Reg} (hrc : rc.IsGeneral)
    (hyes : yes.IsGeneral) (hnc : rc ≠ rd) (hny : yes ≠ rd) (w : Width) :
    Alters c m [.mov w rd.toGpr no.toGpr, .test .w32 rc.toGpr rc.toGpr,
        .cmovne w rd.toGpr yes.toGpr] [rd] fun m' => m'.word w rd.toGpr
        = if m.word .w32 rc.toGpr = 0 then m.word w no.toGpr else m.word w yes.toGpr := by
  refine ⟨_, rfl, ?_, (word_setWord_self ..).trans ?_⟩
  · exact ((SameBut.setWord hrd w (m.word w no.toGpr)).withFlags _).again (.setWord hrd w _)
  · simp only [Cond.holds, zero_ofAnd, word_setWord_of_ne hrd hrc hnc]
    have h1 := word_setWord_self m w rd.toGpr (m.word w no.toGpr)
    have h2 := word_setWord_of_ne (m := m) hrd hyes hny w w (m.word w no.toGpr)
    by_cases h : m.word .w32 rc.toGpr = 0
    · simp only [h, BEq.rfl, Bool.not_true, if_true, Bool.false_eq_true, if_false]
      exact h1
    · simp only [beq_eq_false_iff_ne.mpr h, if_neg h, Bool.not_false, if_true]
      exact h2

/-! ### Memory -/

end JitBackend.Machine

namespace JitBackend

/-- Number of bytes that a load reads. -/
def LoadKind.bytes : LoadKind → Nat
  | .int8 | .uint8 => 1
  | .int16 | .uint16 => 2
  | .value t => t.size
  | .widen => 4

/-- Value that a load makes of the bytes that it reads. -/
def LoadKind.readAs (f : FloatModel) (k : LoadKind) (word : BitVec 64) : Const :=
  match k with
  | .int8 => .int32 ((word.setWidth 8).signExtend 32)
  | .int16 => .int32 ((word.setWidth 16).signExtend 32)
  | .uint8 | .uint16 => .int32 (word.setWidth 32)
  | .value t => .ofBits t word
  | .widen => .float64 (f.widen (word.setWidth 32))

/-- Number of bytes that a store writes. -/
def StoreKind.bytes : StoreKind → Nat
  | .int8 => 1
  | .int16 => 2
  | .value t => t.size

namespace Machine

open State
open Convention (scratch floatScratch)

variable {c : Surroundings} {m : State} {rd ra rb : Reg}

/-- The code of a load. -/
def loadInsts (k : LoadKind) (rd : Reg) (a : Mem) : List Inst :=
  match k with
  | .int8 => [.load .b8 true rd.toGpr a]
  | .uint8 => [.load .b8 false rd.toGpr a]
  | .int16 => [.load .b16 true rd.toGpr a]
  | .uint16 => [.load .b16 false rd.toGpr a]
  | .value t => [loadInst t rd a]
  | .widen => [.loadFloat .single rd.toXmm a, .resize .double rd.toXmm rd.toXmm]

/-- A load that can be observed. -/
theorem exec_loadInsts (k : LoadKind) {a : Mem} (hhid : c.hidden (m.address a) = false)
    (hrd : if k.result.isFloat then rd.IsXmm else rd.IsGeneral) :
    ∃ m', execAll c m (loadInsts k rd a) = some m' ∧
      SameBut [rd] { m with trace := m.trace ++ [.load (m.address a) k.bytes
        (m.mem.read (m.address a) k.bytes)] } m' ∧
      m'.Holds rd (k.readAs c.float (m.mem.read (m.address a) k.bytes)) := by
  have hobs : ∀ n, m.observeLoad c (m.address a) n
      = { m with trace := m.trace ++ [.load (m.address a) n (m.mem.read (m.address a) n)] } :=
    fun n => if_neg (by rw [hhid]; decide)
  have hgpr : ∀ {n : Nat} {i : Inst} {x : BitVec 64} {v : Const}, rd.IsGeneral →
      exec c m i = some ((m.observeLoad c (m.address a) n).setGpr rd.toGpr x) →
      (∀ m1 : State, (m1.setGpr rd.toGpr x).Holds rd v) → ∃ m', execAll c m [i] = some m' ∧
        SameBut [rd] { m with trace := m.trace ++ [.load (m.address a) n
          (m.mem.read (m.address a) n)] } m' ∧ m'.Holds rd v := fun hg he hh =>
    ⟨_, execAll_cons he, by rw [hobs]; exact .setGpr hg _, hh _⟩
  have hxmm : ∀ {n : Nat} {i : Inst} {x : BitVec 128} {v : Const}, rd.IsXmm →
      exec c m i = some ((m.observeLoad c (m.address a) n).setXmm rd.toXmm x) →
      (∀ m1 : State, (m1.setXmm rd.toXmm x).Holds rd v) → ∃ m', execAll c m [i] = some m' ∧
        SameBut [rd] { m with trace := m.trace ++ [.load (m.address a) n
          (m.mem.read (m.address a) n)] } m' ∧ m'.Holds rd v := fun hx he hh =>
    ⟨_, execAll_cons he, by rw [hobs]; exact .setXmm hx _, hh _⟩
  have hnarrow : ∀ {x : BitVec 64} {v : BitVec 32}, x.setWidth 32 = v →
      ∀ m1 : State, (m1.setGpr rd.toGpr x).Holds rd (.int32 v) := fun h m1 =>
    (congrArg (BitVec.setWidth 32) (gpr_setGpr_self m1 _ _)).trans h
  have hback : ∀ x : BitVec 32, (x.setWidth 64).setWidth 32 = x := fun x =>
    (BitVec.setWidth_setWidth_of_le x (by decide)).trans (BitVec.setWidth_eq x)
  rcases k with - | - | - | - | ((- | -) | (- | -)) | -
  · exact hgpr hrd rfl (hnarrow (hback _))
  · exact hgpr hrd rfl (hnarrow rfl)
  · exact hgpr hrd rfl (hnarrow (hback _))
  · exact hgpr hrd rfl (hnarrow rfl)
  · exact hgpr hrd rfl (hnarrow rfl)
  · exact hgpr hrd rfl fun m1 => gpr_setGpr_self m1 _ _
  · refine hxmm hrd rfl fun m1 => (congrArg (BitVec.setWidth 32) (xmm_setXmm_self m1 _ _)).trans ?_
    rw [BitVec.setWidth_setWidth_of_le _ (by decide)]; rfl
  · refine hxmm hrd rfl fun m1 => (congrArg (BitVec.setWidth 64) (xmm_setXmm_self m1 _ _)).trans ?_
    rw [BitVec.setWidth_setWidth_of_le _ (by decide)]
    exact BitVec.setWidth_eq _
  · -- the load leaves a short float, which is then made longer
    let m1 := (m.observeLoad c (m.address a) 4).setXmm rd.toXmm
      ((m.read (m.address a) 4).setWidth 128)
    have hlane : m1.lane .single rd.toXmm = (m.read (m.address a) 4).setWidth 32 := by
      show BitVec.setWidth 32 (State.xmm (State.setXmm _ _ _) _) = _
      rw [xmm_setXmm_self, BitVec.setWidth_setWidth_of_le _ (by decide)]
    refine ⟨m1.setLane .double rd.toXmm (c.float.widen (m1.lane .single rd.toXmm)), rfl, ?_, ?_⟩
    · refine SameBut.again ?_ (.setXmm hrd _)
      show SameBut [rd] _ ((m.observeLoad c (m.address a) 4).setXmm rd.toXmm _)
      rw [hobs]; exact .setXmm hrd _
    · rw [hlane]
      exact (holds_ofPattern (s := .double)).mpr (lane_setLane_self ..)

/-- The code of a store. -/
def storeKindInst (k : StoreKind) (a : Mem) (r : Reg) : Inst :=
  match k with
  | .int8 => .store .b8 a r.toGpr
  | .int16 => .store .b16 a r.toGpr
  | .value t => storeInst t a r

theorem lowBytes_setWidth {n : Nat} (hn : n ≤ 4) (x : BitVec 64) :
    Memory.lowBytes n ((x.setWidth 32).setWidth 64) = Memory.lowBytes n x := by
  apply BitVec.eq_of_getLsbD_eq
  intro i hi
  rw [Memory.getLsbD_lowBytes, Memory.getLsbD_lowBytes]
  by_cases h : i < 8 * n
  · simp [hi, show i < 32 by omega]
  · simp [h]

theorem lowBytes_bits (v : Const) : Memory.lowBytes v.ty.size v.bits = v.bits := by
  cases v with
  | int32 v => exact lowBytes_of_setWidth (n := 4) (by simp [Const.bits])
  | int64 v => exact lowBytes_of_setWidth (n := 8) (BitVec.setWidth_eq v) |>.trans (BitVec.setWidth_eq v)
  | float64 v => exact lowBytes_of_setWidth (n := 8) (BitVec.setWidth_eq v) |>.trans (BitVec.setWidth_eq v)
  | float32 v => exact lowBytes_of_setWidth (n := 4) (by simp [Const.bits])

/-- A store that can be observed. -/
theorem exec_storeKindInst (k : StoreKind) {a : Mem} {r : Reg} {v : Const}
    (hhid : c.hidden (m.address a) = false) (hv : m.Holds r v) (hty : v.ty = k.operand) :
    exec c m (storeKindInst k a r) = some { m with
      mem := m.mem.write (m.address a) k.bytes v.bits
      trace := m.trace ++ [.store (m.address a) k.bytes (Memory.lowBytes k.bytes v.bits)] } := by
  -- the register and the value agree in the bytes that are written
  have hwrite : ∀ {n : Nat} {x : BitVec 64}, Memory.lowBytes n x = Memory.lowBytes n v.bits →
      m.write c (m.address a) n x = { m with
        mem := m.mem.write (m.address a) n v.bits
        trace := m.trace ++ [.store (m.address a) n (Memory.lowBytes n v.bits)] } := by
    intro n x h
    rw [State.write, h, Memory.write_congr m.mem (m.address a) h]
    exact if_neg (by rw [hhid]; decide)
  cases k with
  | int8 =>
    cases v <;> cases hty
    cases hv
    exact congrArg some (hwrite (lowBytes_setWidth (by decide) _).symm)
  | int16 =>
    cases v <;> cases hty
    cases hv
    exact congrArg some (hwrite (lowBytes_setWidth (by decide) _).symm)
  | value t =>
    obtain rfl : v.ty = t := hty
    rw [storeKindInst, exec_storeInst]
    exact congrArg some (hwrite ((lowBytes_stored hv).trans (lowBytes_bits v).symm))

end Machine

end JitBackend
