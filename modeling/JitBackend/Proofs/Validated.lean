import JitBackend.Pipeline.Check
import JitBackend.Proofs.Run

namespace JitBackend

/-!
# Validated buffers

Buffers built from checked instructions. An instruction is checked when it joins; afterwards only
the targets of jumps change.

* `Buffer.Validated` — such a buffer;
* `Instr.Fits` — what the check establishes of the instruction at a position;
* `Buffer.Validated.fits` — it stays true of every instruction;
* `Buffer.Validated.paramsListed` — the table of parameters is complete.
-/

variable {b b' : Buffer} {i : Instr} {k n : Nat} {p : Payload} {h : Handle}

/-- A buffer all of whose instructions passed the check when they were appended. -/
inductive Buffer.Validated : Buffer → Prop
  | empty (id : Nat) : Validated (.empty id)
  | append {b : Buffer} {i : Instr} (hb : Validated b) (hi : i.check b = .ok ()) :
      Validated (b.append i).2
  | setTarget {b b' : Buffer} {branch label : Handle} (hb : Validated b)
      (h : b.setTarget branch label = .ok b') : Validated b'
  | setTableTarget {b b' : Buffer} {table label : Handle} {n : Nat} (hb : Validated b)
      (h : b.setTableTarget table n label = .ok b') : Validated b'

/-- Type of the result of the instruction at a position. -/
def Buffer.resultAt (b : Buffer) (n : Nat) : Option Ty :=
  b.instrs[n]?.map Instr.result

/-- The handle names an instruction of the buffer before position `k`, of result type `t`. -/
structure Buffer.Refers (b : Buffer) (k : Nat) (h : Handle) (t : Ty) : Prop where
  own : h.buffer = b.id
  lt : h.index < k
  result : b.resultAt h.index = some t

/-- Kind that the signature of a call declares for its argument `n`. -/
def Instr.argKind? (i : Instr) (n : Nat) : Option ArgKind :=
  match i.payload with
  | .call site => site.callee.sig.arg? n
  | _ => none

/-- The instruction fits the opcode table and its position. -/
structure Instr.Fits (b : Buffer) (k : Nat) (i : Instr) : Prop where
  operands : List.Forall₂ (fun h t => b.Refers k h (.val t)) i.operandList i.opcode.operands
  kind : i.payload.kind = i.opcode.payloadKind
  const : ∀ c, i.payload = .const c → i.result = .val c.ty
  argCount : i.callArgs.length ≤ maxArgs
  kinds : ∀ (n : Nat) (h : Handle), i.callArgs[n]? = some h →
    ∃ kind, i.argKind? n = some kind ∧ b.Refers k h kind.ty
  table : i.payload ≠ .table #[]

/-! ### Cells -/

theorem Payload.kind_assign (p : Payload) (place : BitVec 64) (label : Handle) :
    (p.assign place label).kind = p.kind := by
  cases p <;> rfl

/-- Binding a cell changes tables only. -/
theorem Payload.assign_eq_iff {q : Payload} {place : BitVec 64} {label : Handle}
    (hq : q.kind ≠ .table) : p.assign place label = q ↔ p = q := by
  cases p with
  | table cells =>
    have hne : ∀ cs : Array Cell, Payload.table cs ≠ q := fun cs h => hq (h ▸ rfl)
    exact iff_of_false (hne _) (hne _)
  | _ => rfl

section

variable (i : Instr) (place : BitVec 64) (label : Handle)

@[simp] theorem Instr.callArgs_assign : (i.assign place label).callArgs = i.callArgs := by
  unfold callArgs Instr.assign
  cases i.payload <;> rfl

@[simp] theorem Instr.guard?_assign : (i.assign place label).guard? = i.guard? := by
  unfold guard? Instr.assign
  cases i.payload <;> rfl

end

/-! ### What the check establishes -/

namespace Instr

theorem checkOperand_eq_ok {p : Nat} {t : Ty} :
    checkOperand b p h = .ok t ↔ b.Refers b.size h t := by
  unfold checkOperand
  constructor
  · intro hc
    split at hc
    · rename_i hown
      split at hc
      · rename_i i hi
        cases hc
        exact ⟨hown, Buffer.lt_size hi, by simp [Buffer.resultAt, hi]⟩
      · cases hc
    · cases hc
  · rintro ⟨hown, -, hres⟩
    rw [if_pos hown]
    obtain ⟨i, hi, rfl⟩ := Option.map_eq_some_iff.mp hres
    simp only [hi]

theorem checkOperands_ok {hs : List Handle} {ts : List ValTy} {p : Nat}
    (hlen : hs.length = ts.length) (h : checkOperands b p (hs.zip ts) = .ok ()) :
    List.Forall₂ (fun h t => b.Refers b.size h (.val t)) hs ts := by
  induction hs generalizing ts p with
  | nil => cases ts <;> simp_all
  | cons x hs ih =>
    cases ts with
    | nil => simp at hlen
    | cons t ts =>
      rw [List.zip_cons_cons, checkOperands, Except.bind_eq_ok] at h
      obtain ⟨found, hfound, hrest⟩ := h
      split at hrest
      · rename_i heq
        subst heq
        exact .cons (checkOperand_eq_ok.mp hfound) (ih (by simpa using hlen) hrest)
      · cases hrest

theorem checkArgs_ok {sig : Signature} {p : Nat} {hs : List Handle}
    (h : checkArgs b sig p hs = .ok ()) {n : Nat} {x : Handle} (hx : hs[n]? = some x) :
    ∃ kind, sig.arg? (p + n) = some kind ∧ b.Refers b.size x kind.ty := by
  induction hs generalizing p n with
  | nil => simp at hx
  | cons y hs ih =>
    rw [checkArgs, Except.bind_eq_ok] at h
    obtain ⟨found, hfound, hrest⟩ := h
    split at hrest
    · rename_i hkind
      cases n with
      | zero =>
        cases hx
        obtain ⟨kind, hsig, rfl⟩ := Option.map_eq_some_iff.mp hkind
        exact ⟨kind, hsig, checkOperand_eq_ok.mp hfound⟩
      | succ n =>
        rw [Nat.add_comm n 1, ← Nat.add_assoc]
        exact ih hrest hx
    · cases hrest

theorem checkCall_ok {t : Ty} {site : CallSite} (h : checkCall b t site = .ok ()) :
    site.args.length ≤ maxArgs ∧ ∀ (n : Nat) (x : Handle), site.args[n]? = some x →
      ∃ kind, site.callee.sig.arg? n = some kind ∧ b.Refers b.size x kind.ty := by
  simp only [checkCall] at h
  split at h
  · cases h
  · rename_i hn
    split at h
    · cases h
    · refine ⟨Nat.le_of_not_lt fun hlt => hn (.inl hlt), fun n x hx => ?_⟩
      simpa using checkArgs_ok h hx

theorem length_of_checkCount (h : i.checkCount = .ok ()) :
    i.operandList.length = i.opcode.operands.length := by
  simp only [checkCount] at h
  split at h
  · rename_i hc; exact hc.1
  · cases h

/-- What the check of an instruction that joins a buffer establishes. -/
theorem fits_of_check (h : i.check b = .ok ()) : i.Fits b b.size := by
  simp only [check, Except.bind_eq_ok] at h
  obtain ⟨_, hcount, _, hops, h⟩ := h
  split at h
  · cases h
  rename_i hkind
  simp only [Except.bind_eq_ok] at h
  obtain ⟨_, hconst, hpay⟩ := h
  have hkind : i.payload.kind = i.opcode.payloadKind := not_not.mp hkind
  refine ⟨checkOperands_ok (length_of_checkCount hcount) hops, hkind, ?_, ?_, ?_, ?_⟩
  · intro c hc
    rw [checkConstant, hc] at hconst
    simp only at hconst
    split at hconst
    · rename_i ht; exact ht.symm
    · cases hconst
  · unfold callArgs
    split
    · rename_i site hs
      rw [checkPayload, hs] at hpay
      exact (checkCall_ok hpay).1
    · simp
  · unfold callArgs
    split
    · rename_i site hs
      rw [checkPayload, hs] at hpay
      simpa only [argKind?, hs] using (checkCall_ok hpay).2
    · simp
  · intro ht
    rw [checkPayload, ht] at hpay
    cases hpay

/-! ### What later changes keep -/

theorem Fits.operand (hi : i.Fits b k) (hh : h ∈ i.operandList) : ∃ t, b.Refers k h (.val t) := by
  obtain ⟨n, hn, rfl⟩ := List.getElem_of_mem hh
  have hlen := hi.operands.length_eq
  exact ⟨_, (List.forall₂_iff_get.mp hi.operands).2 n hn (hlen ▸ hn)⟩

theorem Fits.args (hi : i.Fits b k) (hh : h ∈ i.callArgs) : ∃ t, b.Refers k h t := by
  obtain ⟨n, hn⟩ := List.mem_iff_getElem?.mp hh
  obtain ⟨kind, -, href⟩ := hi.kinds n h hn
  exact ⟨kind.ty, href⟩

/-- What an instruction fits is told by the results before it. -/
theorem Fits.mono (h : i.Fits b k) (hid : b'.id = b.id)
    (hres : ∀ n < k, b'.resultAt n = b.resultAt n) : i.Fits b' k := by
  have href : ∀ h t, b.Refers k h t → b'.Refers k h t := fun h t hr =>
    ⟨hr.own.trans hid.symm, hr.lt, (hres _ hr.lt).trans hr.result⟩
  refine { h with operands := h.operands.imp fun h t => href h (.val t), kinds := ?_ }
  intro n x hx
  obtain ⟨kind, hkind, hx⟩ := h.kinds n x hx
  exact ⟨kind, hkind, href x _ hx⟩

theorem Fits.assign (h : i.Fits b k) (place : BitVec 64) (label : Handle) :
    (i.assign place label).Fits b k := by
  have hkind : (i.assign place label).argKind? = i.argKind? := by
    unfold argKind? Instr.assign
    cases i.payload <;> rfl
  refine ⟨h.operands, (Payload.kind_assign ..).trans h.kind, fun c hc => ?_, ?_, ?_,
    fun ht => h.table ?_⟩
  · exact h.const c ((Payload.assign_eq_iff (by simp [Payload.kind])).mp hc)
  · rw [callArgs_assign]
    exact h.argCount
  · rw [callArgs_assign, hkind]
    exact h.kinds
  · obtain ⟨op, ops, p⟩ := i
    cases p with
    | table cells => exact congrArg _ (Array.map_eq_empty_iff.mp (Payload.table.inj ht))
    | _ => cases ht

/-- Only the payload kind matters of a payload that holds targets. -/
theorem Fits.withTargets (h : i.Fits b k) (hkind : p.kind = i.payload.kind)
    (hp : p.kind = .target ∨ p.kind = .table) (htable : p ≠ .table #[]) :
    Fits b k { i with payload := p } := by
  have hargs : callArgs { i with payload := p } = [] := by
    unfold callArgs
    split
    · rename_i site hs
      have hs : p = .call site := hs
      subst hs; simp [Payload.kind] at hp
    · rfl
  refine ⟨h.operands, hkind.trans h.kind, ?_, by simp [hargs], by simp [hargs], htable⟩
  intro c hc
  have hc : p = .const c := hc
  subst hc
  simp [Payload.kind] at hp

end Instr

namespace Buffer

theorem resultAt_append (h : n < b.size) : (b.append i).2.resultAt n = b.resultAt n := by
  simp only [resultAt, append, Array.getElem?_push]
  rw [if_neg (show n ≠ b.instrs.size from Nat.ne_of_lt h)]

theorem resultAt_setPayload (b : Buffer) (k n : Nat) (p : Payload) :
    (b.setPayload k p).resultAt n = b.resultAt n := by
  simp only [resultAt, setPayload, Array.getElem?_modify]
  split
  · cases b.instrs[n]? <;> rfl
  · rfl

/-- Replacing targets keeps all instructions fitting. -/
theorem fits_setPayload (hb : ∀ (n : Nat) (j : Instr), b.instrs[n]? = some j → j.Fits b n)
    (hk : b.instrs[k]? = some i) (hkind : p.kind = i.payload.kind)
    (hp : p.kind = .target ∨ p.kind = .table) (htable : p ≠ .table #[]) :
    ∀ (n : Nat) (j : Instr), (b.setPayload k p).instrs[n]? = some j →
      j.Fits (b.setPayload k p) n := by
  intro n j hj
  have hmono : ∀ {x : Instr}, x.Fits b n → x.Fits (b.setPayload k p) n := fun hx =>
    hx.mono rfl fun n _ => resultAt_setPayload b k n p
  simp only [setPayload, Array.getElem?_modify] at hj
  split at hj
  · rename_i hkn
    subst hkn
    rw [hk] at hj
    cases hj
    exact hmono ((hb k i hk).withTargets hkind hp htable)
  · exact hmono (hb n j hj)

theorem setTarget_eq_ok {branch label : Handle} (h : b.setTarget branch label = .ok b') :
    ∃ i, b.instrs[branch.index]? = some i ∧ i.opcode.isBranch ∧
      b' = b.setPayload branch.index (.target (some label)) := by
  simp only [setTarget, Except.bind_eq_ok] at h
  obtain ⟨-, -, -, -, h⟩ := h
  split at h
  · rename_i i hi
    split at h
    · rename_i hbr
      cases h
      refine ⟨i, ?_, hbr, rfl⟩
      simp only [get?] at hi
      split at hi
      · exact hi
      · cases hi
    · cases h
  · cases h

theorem setTableTarget_eq_ok {table label : Handle} (h : b.setTableTarget table n label = .ok b') :
    ∃ place, b' = b.assign place label := by
  obtain ⟨cell, -, heq⟩ := Except.bind_eq_ok.mp h
  cases heq
  exact ⟨cell.place, rfl⟩

theorem getElem?_assign (b : Buffer) (place : BitVec 64) (label : Handle) (n : Nat) :
    (b.assign place label).instrs[n]? = b.instrs[n]?.map (·.assign place label) :=
  Array.getElem?_map

theorem resultAt_assign (b : Buffer) (place : BitVec 64) (label : Handle) (n : Nat) :
    (b.assign place label).resultAt n = b.resultAt n := by
  rw [resultAt, getElem?_assign, Option.map_map]
  rfl

/-- Every instruction of a validated buffer fits its position. -/
theorem Validated.fits (hb : b.Validated) (hi : b.instrs[k]? = some i) : i.Fits b k := by
  suffices h : ∀ (n : Nat) (j : Instr), b.instrs[n]? = some j → j.Fits b n from h k i hi
  clear hi
  induction hb with
  | empty id => intro n j hj; simp [Buffer.empty] at hj
  | append hb hi ih =>
    rename_i b i
    intro n j hj
    simp only [Buffer.append, Array.getElem?_push] at hj
    split at hj
    · rename_i hn
      cases hj
      subst hn
      exact (Instr.fits_of_check hi).mono rfl fun m hm => resultAt_append hm
    · have hlt := Buffer.lt_size hj
      exact (ih n j hj).mono rfl fun m hm => resultAt_append (Nat.lt_trans hm hlt)
  | setTarget hb h ih =>
    obtain ⟨i, hi, hbr, rfl⟩ := setTarget_eq_ok h
    have hkind : i.payload.kind = .target := by
      rw [(ih _ _ hi).kind]
      revert hbr
      cases i.opcode <;> simp [Opcode.isBranch, Opcode.payloadKind]
    exact fits_setPayload ih hi (by rw [hkind]; rfl) (.inl rfl) (by simp)
  | setTableTarget hb h ih =>
    obtain ⟨place, rfl⟩ := setTableTarget_eq_ok h
    intro n j hj
    rw [getElem?_assign] at hj
    obtain ⟨i, hi, rfl⟩ := Option.map_eq_some_iff.mp hj
    exact ((ih n i hi).assign place _).mono rfl fun m _ => resultAt_assign ..

/-! ### The table of parameters -/

/-- Payload of the instruction at a position. -/
def payloadAt (b : Buffer) (n : Nat) : Option Payload :=
  b.instrs[n]?.map Instr.payload

/-- The table of parameters names the last instruction for each position that has one. -/
structure ParamsListed (b : Buffer) : Prop where
  listed : ∀ (i : Nat) (h : Handle), b.params[i]? = some (some h) →
    h.buffer = b.id ∧ ∃ p, b.payloadAt h.index = some (.param p) ∧ p.toNat = i
  complete : ∀ (n : Nat) (p : BitVec 8), b.payloadAt n = some (.param p) → p.toNat < maxParams →
    ∃ h, b.params[p.toNat]? = some (some h)
  last : ∀ (n : Nat) (p : BitVec 8) (h : Handle), b.payloadAt n = some (.param p) →
    b.params[p.toNat]? = some (some h) → n ≤ h.index

theorem payloadAt_append (b : Buffer) (i : Instr) (n : Nat) :
    (b.append i).2.payloadAt n = if n = b.size then some i.payload else b.payloadAt n := by
  simp only [payloadAt, append, Array.getElem?_push]
  by_cases h : n = b.size
  · rw [if_pos h, if_pos (show n = b.instrs.size from h)]; rfl
  · rw [if_neg h, if_neg (show n ≠ b.instrs.size from h)]

theorem payloadAt_setPayload {q : BitVec 8} (hk : b.instrs[k]? = some i) (hi : i.payload ≠ .param q)
    (hp : p ≠ .param q) :
    (b.setPayload k p).payloadAt n = some (.param q) ↔ b.payloadAt n = some (.param q) := by
  simp only [payloadAt, setPayload, Array.getElem?_modify]
  split
  · rename_i hkn
    subst hkn
    simp [hk, hi, hp]
  · rfl

theorem ParamsListed.setPayload (hb : b.ParamsListed) (hk : b.instrs[k]? = some i)
    (hi : i.payload.kind ≠ .param) (hp : p.kind ≠ .param) : (b.setPayload k p).ParamsListed := by
  have heq : ∀ n q, (b.setPayload k p).payloadAt n = some (.param q) ↔
      b.payloadAt n = some (.param q) := fun n q =>
    payloadAt_setPayload hk (fun h => hi (by rw [h]; rfl)) (fun h => hp (by rw [h]; rfl))
  constructor
  · intro j h hj
    obtain ⟨hown, q, hq, hqj⟩ := hb.listed j h hj
    exact ⟨hown, q, (heq _ _).mpr hq, hqj⟩
  · intro n q hq
    exact hb.complete n q ((heq _ _).mp hq)
  · intro n q h hq
    exact hb.last n q h ((heq _ _).mp hq)

theorem ParamsListed.assign (hb : b.ParamsListed) (place : BitVec 64) (label : Handle) :
    (b.assign place label).ParamsListed := by
  have heq : ∀ n q, (b.assign place label).payloadAt n = some (.param q) ↔
      b.payloadAt n = some (.param q) := by
    intro n q
    have hq : (Payload.param q).kind ≠ .table := by simp [Payload.kind]
    rw [payloadAt, getElem?_assign, payloadAt]
    cases b.instrs[n]? with
    | none => rfl
    | some i => exact (Option.some_inj.trans (Payload.assign_eq_iff hq)).trans Option.some_inj.symm
  constructor
  · intro j h hj
    obtain ⟨hown, q, hq, hqj⟩ := hb.listed j h hj
    exact ⟨hown, q, (heq _ _).mpr hq, hqj⟩
  · exact fun n q hq => hb.complete n q ((heq _ _).mp hq)
  · exact fun n q h hq => hb.last n q h ((heq _ _).mp hq)

/-- The table of parameters after one more instruction. -/
theorem params_append (b : Buffer) (i : Instr) (j : Nat) : (b.append i).2.params[j]? =
    match i.payload with
    | .param p => if p.toNat = j ∧ p.toNat < maxParams then some (some b.next) else b.params[j]?
    | _ => b.params[j]? := by
  simp only [Buffer.append, indexParam]
  cases i.payload with
  | param p =>
    simp only [Vector.getElem?_setIfInBounds]
    by_cases hj : p.toNat = j
    · subst hj
      by_cases hlt : p.toNat < maxParams
      · simp [hlt]
      · simp [hlt]
    · simp [hj]
  | _ => rfl

theorem ParamsListed.append (hb : b.ParamsListed) (i : Instr) : (b.append i).2.ParamsListed := by
  have hold : ∀ (j : Nat) (h : Handle), b.params[j]? = some (some h) →
      h.buffer = b.id ∧ ∃ p, (b.append i).2.payloadAt h.index = some (.param p) ∧ p.toNat = j := by
    intro j h hj
    obtain ⟨hown, p, hp, hpj⟩ := hb.listed j h hj
    refine ⟨hown, p, ?_, hpj⟩
    obtain ⟨x, hx, -⟩ := Option.map_eq_some_iff.mp hp
    have hlt := Buffer.lt_size hx
    rw [payloadAt_append, if_neg (Nat.ne_of_lt hlt), hp]
  constructor
  · intro j h hj
    rw [params_append] at hj
    cases hpay : i.payload with
    | param p =>
      simp only [hpay] at hj
      split at hj
      · rename_i hc
        cases hj
        exact ⟨rfl, p, by rw [payloadAt_append, if_pos (show b.next.index = b.size from rfl), hpay], hc.1⟩
      · exact hold j h hj
    | _ => simp only [hpay] at hj; exact hold j h hj
  · intro n q hq hlt
    rw [payloadAt_append] at hq
    rw [params_append]
    by_cases hn : n = b.size
    · rw [if_pos hn] at hq
      rw [Option.some.inj hq]
      simp [hlt]
    · rw [if_neg hn] at hq
      obtain ⟨h, hh⟩ := hb.complete n q hq hlt
      cases i.payload with
      | param p =>
        simp only
        split
        · exact ⟨_, rfl⟩
        · exact ⟨h, hh⟩
      | _ => exact ⟨h, hh⟩
  · intro n q h hq hh
    rw [payloadAt_append] at hq
    rw [params_append] at hh
    by_cases hn : n = b.size
    · rw [if_pos hn] at hq
      rw [Option.some.inj hq] at hh
      simp only [true_and] at hh
      split at hh
      · cases hh
        exact Nat.le_of_eq hn
      · exact absurd (Vector.getElem?_eq_some_iff.mp hh).1 ‹_›
    · rw [if_neg hn] at hq
      obtain ⟨x, hx, -⟩ := Option.map_eq_some_iff.mp hq
      have hlt := Buffer.lt_size hx
      cases hpay : i.payload with
      | param p =>
        simp only [hpay] at hh
        split at hh
        · cases hh
          exact Nat.le_of_lt hlt
        · exact hb.last n q h hq hh
      | _ => simp only [hpay] at hh; exact hb.last n q h hq hh

theorem Validated.paramsListed (hb : b.Validated) : b.ParamsListed := by
  induction hb with
  | empty id =>
    constructor
    · intro i h hi
      simp only [Buffer.empty, Vector.getElem?_replicate] at hi
      split at hi <;> simp at hi
    · intro n p hp
      simp [payloadAt, Buffer.empty] at hp
    · intro n p h hp
      simp [payloadAt, Buffer.empty] at hp
  | append hb hi ih => exact ih.append _
  | setTarget hb h ih =>
    obtain ⟨i, hi, hbr, rfl⟩ := setTarget_eq_ok h
    refine ih.setPayload hi ?_ (by simp [Payload.kind])
    rw [(hb.fits hi).kind]
    revert hbr
    cases i.opcode <;> simp [Opcode.isBranch, Opcode.payloadKind]
  | setTableTarget hb h ih =>
    obtain ⟨place, rfl⟩ := setTableTarget_eq_ok h
    exact ih.assign place _

/-! ### Buffers from lists -/

/-- The buffer with instructions appended in order. -/
def appendAll (b : Buffer) : List Instr → Buffer
  | [] => b
  | i :: is => (b.append i).2.appendAll is

/-- Whether the instructions pass the check one after the other. -/
def accepts (b : Buffer) : List Instr → Bool
  | [] => true
  | i :: is => (i.check b).isOk && (b.append i).2.accepts is

theorem Validated.appendAll (hb : b.Validated) {is : List Instr} (h : b.accepts is = true) :
    (b.appendAll is).Validated := by
  induction is generalizing b with
  | nil => exact hb
  | cons i is ih =>
    rw [accepts, Bool.and_eq_true] at h
    refine ih (.append hb ?_) h.2
    cases hc : i.check b with
    | ok u => rfl
    | error e => rw [hc] at h; cases h.1

/-- A loop that counts a parameter down to zero in a stack area. -/
def countdown : Buffer :=
  (Buffer.empty 0).appendAll [
    .plain .start [],
    ⟨.param, .empty, .param 0⟩,
    ⟨.alloc, .empty, .alloc 8⟩,
    ⟨.store (.value .int64), .ofList [⟨0, 1⟩, ⟨0, 2⟩], .disp 0⟩,
    .plain .label [],
    ⟨.load (.value .int64), .ofList [⟨0, 2⟩], .disp 0⟩,
    .const (.int64 1),
    .plain (.arith .w64 .sub) [⟨0, 5⟩, ⟨0, 6⟩],
    ⟨.store (.value .int64), .ofList [⟨0, 7⟩, ⟨0, 2⟩], .disp 0⟩,
    .const (.int64 0),
    .plain (.compare .w64 .gt) [⟨0, 7⟩, ⟨0, 9⟩],
    ⟨.branch true, .ofList [⟨0, 10⟩], .target (some ⟨0, 4⟩)⟩,
    .plain (.ret .int64) [⟨0, 7⟩]]

theorem countdown_validated : countdown.Validated :=
  (Validated.empty 0).appendAll (by decide)

end Buffer

end JitBackend
