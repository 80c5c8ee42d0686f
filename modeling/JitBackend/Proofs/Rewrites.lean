import JitBackend.Pipeline.Simplify

namespace JitBackend

/-!
# Rewrites of integer instructions

The simplifier is a cascade of tests. Here are the rewrites that come out of it, one by one, each
with the tests that it has passed, so that what holds of every rewrite is shown by cases.

* `Simplify.Identity` — the rewrites of two operands, in the order in which they are tried;
* `Simplify.Rewrite` — the rewrites of an instruction;
* `Simplify.rewrite_of_simplify` — a plan is one of the rewrites.
-/

/-- The opcode of an integer operation of two operands. -/
def Opcode.isIntBinary : Opcode → Bool
  | .arith _ _ | .shift _ _ | .compare _ _ => true
  | _ => false

theorem Instr.mem_operandList {i : Instr} {x : Handle} : x ∈ i.operandList ↔
    i.operands.fst = some x ∨ i.operands.snd = some x ∨ i.operands.thd = some x := by
  simp [operandList, Operands.toList, Operands.slots, List.mem_filterMap, eq_comm]

namespace Simplify

variable {b : Buffer} {i : Instr} {p : Plan} {x y : Option (BitVec 64)} {op : Opcode} {a : Handle}

/-- The constant on the right leaves the operand on the left as it is. -/
def IsUnit (op : Opcode) (c : BitVec 64) : Prop :=
  match op with
  | .arith _ .add | .arith _ .sub | .arith _ .xor | .arith _ .or | .shift _ _ => c = 0
  | .arith _ .and => c = -1
  | .arith _ .mul | .arith _ .div => c = 1
  | _ => False

/-- The constant on the right is the result, whatever the operand on the left is. -/
def Absorbs (op : IntOp) (c : BitVec 64) : Prop :=
  match op with
  | .and | .mul => c = 0
  | .or => c = -1
  | _ => False

/-- Rewrites of an operation on the operands `a` and `b`, whose constants are `x` and `y`. -/
inductive Identity (a b : Handle) (x y : Option (BitVec 64)) : Opcode → Plan → Prop where
  /-- Both operands are constants, and the operation does not trap on them. -/
  | fold {op : Opcode} {u v : BitVec 64} {c : Const} (hx : x = some u) (hy : y = some v)
      (h : foldBinary op u v = some c) : Identity a b x y op (.replace (.const c))
  | cancel {w : Width} {o : IntOp} (hab : a = b) (ho : o = .sub ∨ o = .xor) :
      Identity a b x y (.arith w o) (.replace (zero w))
  | idempotent {w : Width} {o : IntOp} (hab : a = b) (ho : o = .and ∨ o = .or) :
      Identity a b x y (.arith w o) (.existing a)
  | reflexive {w : Width} {rel : IntRel} (hab : a = b) :
      Identity a b x y (.compare w rel) (.replace (.const (.ofBool rel.isReflexive)))
  | unit {op : Opcode} {c : BitVec 64} (hy : y = some c) (hc : IsUnit op c) :
      Identity a b x y op (.existing a)
  | absorb {w : Width} {o : IntOp} {c : BitVec 64} (hy : y = some c) (hc : Absorbs o c) :
      Identity a b x y (.arith w o) (.existing b)
  | power {w : Width} {c : BitVec 64} {k : Nat} (hy : y = some c) (hk : powerOfTwo? c = some k) :
      Identity a b x y (.arith w .mul) (.shiftLeft w a k)
  | remOne {w : Width} (hy : y = some 1) : Identity a b x y (.arith w .rem) (.replace (zero w))
  | negate {w : Width} (hx : x = some 0) :
      Identity a b x y (.arith w .sub) (.replace (.plain (.unary w .neg) [b]))
  | shiftZero {w : Width} {o : ShiftOp} (hx : x = some 0) :
      Identity a b x y (.shift w o) (.existing a)

theorem identity_of_planSame {b : Handle} (hab : a = b) (h : planSame op a = some p) :
    Identity a b x y op p := by
  unfold planSame at h
  split at h
  · cases h; exact .cancel hab (.inl rfl)
  · cases h; exact .cancel hab (.inr rfl)
  · cases h; exact .idempotent hab (.inl rfl)
  · cases h; exact .idempotent hab (.inr rfl)
  · cases h; exact .reflexive hab
  · cases h

theorem identity_of_planRight {b : Handle} {c : BitVec 64} (hy : y = some c)
    (h : planRight op a b c = some p) : Identity a b x y op p := by
  unfold planRight at h
  split at h
  case h_1 | h_2 | h_3 | h_4 =>
    split at h
    · cases h; exact .unit hy ‹c = 0›
    · cases h
  case h_5 =>
    split at h
    · cases h; exact .unit hy ‹c = 0›
    · split at h
      · cases h; exact .absorb hy ‹c = -1›
      · cases h
  case h_6 =>
    split at h
    · cases h; exact .absorb hy ‹c = 0›
    · split at h
      · cases h; exact .unit hy ‹c = -1›
      · cases h
  case h_7 =>
    split at h
    · cases h; exact .absorb hy ‹c = 0›
    · split at h
      · cases h; exact .unit hy ‹c = 1›
      · obtain ⟨k, hk, rfl⟩ := Option.map_eq_some_iff.mp h
        exact .power hy hk
  case h_8 =>
    split at h
    · cases h; exact .unit hy ‹c = 1›
    · cases h
  case h_9 =>
    split at h
    · rename_i hc
      subst hc
      cases h; exact .remOne hy
    · cases h
  case h_10 => cases h

theorem identity_of_planLeftZero {b : Handle} (hx : x = some 0) (h : planLeftZero op a b = some p) :
    Identity a b x y op p := by
  unfold planLeftZero at h
  split at h
  · cases h; exact .negate hx
  · cases h; exact .shiftZero hx
  · cases h

theorem identity_of_planOperands {b : Handle} (h : planOperands op a b x y = some p) :
    Identity a b x y op p := by
  unfold planOperands at h
  simp only [Option.orElse_eq_orElse, Option.orElse_eq_or, Option.or_eq_some_iff] at h
  -- the four tests in order; a later one counts only if the ones before it fail
  rcases h with h | ⟨-, h | ⟨-, h | ⟨-, h⟩⟩⟩
  · obtain ⟨u, hu, v, hv, c, hc, hp⟩ : ∃ u, x = some u ∧ ∃ v, y = some v ∧
        ∃ c, foldBinary op u v = some c ∧ some (Plan.replace (.const c)) = some p := by
      simpa [Option.bind_eq_some_iff] using h
    cases hp
    exact .fold hu hv hc
  · split at h
    · exact identity_of_planSame ‹_› h
    · cases h
  · obtain ⟨c, hc, hp⟩ := Option.bind_eq_some_iff.mp h
    exact identity_of_planRight hc hp
  · split at h
    · exact identity_of_planLeftZero ‹_› h
    · cases h

/-- The ways to simplify the instruction `i`, which is about to join the buffer `b`. -/
inductive Rewrite (b : Buffer) (i : Instr) : Plan → Prop where
  | keep : Rewrite b i (.keep i)
  | foldUnary {x : Handle} {c : BitVec 64} {v : Const} (hx : i.operands.fst = some x)
      (hc : constOf? b x = some c) (hv : foldUnary i.opcode c = some v) :
      Rewrite b i (.replace (.const v))
  /-- The operand is the result of an operation that this one takes back. -/
  | undo {x y : Handle} {inner : Instr} (hx : i.operands.fst = some x)
      (hget : b.get x = .ok inner) (hundo : undoes i.opcode inner.opcode = true)
      (hy : inner.operands.fst = some y) : Rewrite b i (.existing y)
  | swap {x y : Handle} (hop : i.opcode.isIntBinary = true) (hcomm : i.opcode.isCommutative = true)
      (hx : i.operands.fst = some x) (hy : i.operands.snd = some y) :
      Rewrite b i (.keep { i with operands := ⟨some y, some x, none⟩ })
  | binary {x y : Handle} {p : Plan} (hop : i.opcode.isIntBinary = true)
      (hx : i.operands.fst = some x) (hy : i.operands.snd = some y)
      (h : Identity x y (constOf? b x) (constOf? b y) i.opcode p) : Rewrite b i p
  /-- An identity of a commutative operation with its operands exchanged. -/
  | swapped {x y : Handle} {p : Plan} (hop : i.opcode.isIntBinary = true)
      (hcomm : i.opcode.isCommutative = true)
      (hx : i.operands.fst = some x) (hy : i.operands.snd = some y)
      (h : Identity y x (constOf? b y) (constOf? b x) i.opcode p) : Rewrite b i p
  /-- The condition of a selection is a constant. -/
  | choose {w : Width} {c yes no : Handle} {k : BitVec 64} (hop : i.opcode = .select (.int w))
      (hops : i.operands = ⟨some c, some yes, some no⟩) (hk : constOf? b c = some k) :
      Rewrite b i (.existing (if k = 0 then no else yes))
  | agree {w : Width} {c yes : Handle} (hop : i.opcode = .select (.int w))
      (hops : i.operands = ⟨some c, some yes, some yes⟩) : Rewrite b i (.existing yes)

theorem rewrite_of_planUnary (h : planUnary b i = .ok p) : Rewrite b i p := by
  unfold planUnary at h
  split at h
  · cases h; exact .keep
  · rename_i x hx
    split at h
    · rename_i c hc
      split at h
      · rename_i v hv
        cases h; exact .foldUnary hx hc hv
      · cases h; exact .keep
    · cases hget : b.get x with
      | error f => rw [hget] at h; cases h
      | ok inner =>
        rw [hget] at h
        change (if undoes i.opcode inner.opcode = true then _ else _) = _ at h
        split at h
        · split at h
          · cases h; exact .undo hx hget ‹_› ‹_›
          · cases h; exact .keep
        · cases h; exact .keep

theorem rewrite_of_planBinary (hop : i.opcode.isIntBinary = true) :
    Rewrite b i (planBinary b i) := by
  unfold planBinary
  split
  · rename_i x y hx hy
    dsimp only
    split
    · rename_i hcomm
      cases h : planOperands i.opcode y x (constOf? b y) (constOf? b x) with
      | none => exact .swap hop hcomm.1 hx hy
      | some p => exact .swapped hop hcomm.1 hx hy (identity_of_planOperands h)
    · cases h : planOperands i.opcode x y (constOf? b x) (constOf? b y) with
      | none => exact .keep
      | some p => exact .binary hop hx hy (identity_of_planOperands h)
  · exact .keep

theorem rewrite_of_planSelect {w : Width} (hop : i.opcode = .select (.int w)) :
    Rewrite b i (planSelect b i) := by
  unfold planSelect
  split
  · rename_i c yes no hc hyes hno
    have hops : i.operands = ⟨some c, some yes, some no⟩ := by rw [← hc, ← hyes, ← hno]
    split
    · exact .choose hop hops ‹_›
    · split
      · rename_i heq
        rw [← heq] at hops
        exact .agree hop hops
      · exact .keep
  · exact .keep

/-- The simplifier rewrites an instruction in one of the ways above. -/
theorem rewrite_of_simplify (h : i.simplify b = .ok p) : Rewrite b i p := by
  unfold Instr.simplify at h
  split at h
  case h_1 | h_2 | h_3 | h_4 => exact rewrite_of_planUnary h
  case h_5 hop | h_6 hop | h_7 hop =>
    cases h; exact rewrite_of_planBinary (by rw [hop]; rfl)
  case h_8 hop => cases h; exact rewrite_of_planSelect hop
  case h_9 => cases h; exact .keep

/-- The simplifier has a plan for every instruction whose operands are in the buffer. -/
theorem exists_plan_of_get (h : ∀ x ∈ i.operandList, ∃ inner, b.get x = .ok inner) :
    ∃ p, i.simplify b = .ok p := by
  have hunary : ∃ p, planUnary b i = .ok p := by
    unfold planUnary
    split
    · exact ⟨_, rfl⟩
    · rename_i x hx
      obtain ⟨inner, hinner⟩ := h x (Instr.mem_operandList.mpr (.inl hx))
      rw [hinner]
      split
      · split <;> exact ⟨_, rfl⟩
      · show ∃ p, (if undoes i.opcode inner.opcode then _ else _) = Except.ok p
        split
        · split <;> exact ⟨_, rfl⟩
        · exact ⟨_, rfl⟩
  unfold Instr.simplify
  split
  case h_1 | h_2 | h_3 | h_4 => exact hunary
  all_goals exact ⟨_, rfl⟩

end Simplify

end JitBackend
