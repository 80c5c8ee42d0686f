import JitBackend.Proofs.Meaning

namespace JitBackend

/-!
# How a chain renders an instruction

A chain answers an instruction with a handle. Here is why the handle stands for it: wherever the
instructions at hand have computed what they hold, the handle has the value of the instruction.
All is said about the finished buffer `F`, of which the buffers on the way are beginnings, and
about a set `P` of its positions, those that are certain to have been run.

* `Buffer.Becomes` — a buffer is the beginning of another one, up to targets of jumps;
* `Interp.Coherent` — the positions of a set hold what their instructions compute;
* `Interp.Stands` — a handle has the value of an instruction;
* `Chain.Sound` — every shared instruction stands for its key;
* `Chain.feed_rendered` — the answer to a pure instruction stands for it;
* `Chain.feed_effect` — any other instruction joins the buffer as it is.
-/

/-! ### Beginnings of buffers -/

variable {i j : Instr} {x h : Handle} {b F b' : Buffer} {k n : Nat} {P Q : Nat → Prop} {c : Chain n}
  {w : Workspace} {op : Opcode}

/-- Instructions were appended. -/
structure Buffer.Extends (b b' : Buffer) : Prop where
  id : b'.id = b.id
  instr : ∀ (n : Nat) (i : Instr), b.instrs[n]? = some i → b'.instrs[n]? = some i

namespace Buffer.Extends

variable {b b' b'' : Buffer}

theorem refl (b : Buffer) : b.Extends b :=
  ⟨rfl, fun _ _ hi => hi⟩

theorem trans (h : b.Extends b') (h' : b'.Extends b'') : b.Extends b'' :=
  ⟨h'.id.trans h.id, fun n i hi => h'.instr n i (h.instr n i hi)⟩

theorem append (b : Buffer) (i : Instr) : b.Extends (b.append i).2 := by
  refine ⟨rfl, fun n j hj => ?_⟩
  have hlt : n < b.instrs.size := Buffer.lt_size hj
  rw [Buffer.append, Array.getElem?_push, if_neg (Nat.ne_of_lt hlt), hj]

end Buffer.Extends

/-- The buffer is the beginning of `F`: instructions have kept their places and, but for the
    targets of jumps, have not changed. -/
structure Buffer.Becomes (b F : Buffer) : Prop where
  id : F.id = b.id
  instr : ∀ (n : Nat) (i : Instr), b.instrs[n]? = some i → ∃ j, F.instrs[n]? = some j ∧
    j.opcode = i.opcode ∧ j.operands = i.operands ∧ (i.isPure = true → j = i)

@[simp] theorem Buffer.size_append (b : Buffer) (i : Instr) : (b.append i).2.size = b.size + 1 := by
  simp [Buffer.size, Buffer.append]

theorem Buffer.instrs_append_size (b : Buffer) (i : Instr) :
    (b.append i).2.instrs[b.size]? = some i := by
  simp [Buffer.size, Buffer.append]

theorem Payload.exists_const {p : Payload} (h : p.kind = .imm) : ∃ c, p = .const c := by
  cases p <;> first | exact ⟨_, rfl⟩ | cases h

theorem Buffer.Extends.becomes (h : b.Extends b') : b.Becomes b' :=
  ⟨h.id, fun n i hi => ⟨i, h.instr n i hi, rfl, rfl, fun _ => rfl⟩⟩

theorem Buffer.get?_eq_some (hi : b.get? h = some i) :
    h.buffer = b.id ∧ b.instrs[h.index]? = some i := by
  unfold get? at hi
  split at hi
  · exact ⟨‹_›, hi⟩
  · cases hi

theorem Buffer.instrs_append (hj : (b.append i).2.instrs[k]? = some j) :
    k < b.size ∧ b.instrs[k]? = some j ∨ k = b.size ∧ j = i := by
  rw [append, Array.getElem?_push] at hj
  split at hj
  · rename_i hk
    exact .inr ⟨hk, (Option.some.inj hj).symm⟩
  · exact .inl ⟨Buffer.lt_size hj, hj⟩

theorem Buffer.get?_of_instrs (hid : h.buffer = b.id) (hi : b.instrs[h.index]? = some i) :
    b.get? h = some i := by
  rw [get?, if_pos hid, hi]

theorem Buffer.Extends.get? (h : b.Extends b') (hi : b.get? x = some i) : b'.get? x = some i := by
  obtain ⟨hid, hat⟩ := get?_eq_some hi
  exact get?_of_instrs (hid.trans h.id.symm) (h.instr _ _ hat)

theorem Buffer.Refers.get? {t : Ty} (hr : b.Refers k h t) : ∃ i, b.get? h = some i := by
  obtain ⟨i, hi, -⟩ := Option.map_eq_some_iff.mp hr.result
  exact ⟨i, get?_of_instrs hr.own hi⟩

theorem Instr.not_immediate (h : i.isPure = false) : i.opcode.isImmediate = false := by
  unfold isPure at h
  cases hop : i.opcode with
  | imm t => rw [hop] at h; cases h
  | _ => rfl

theorem Interp.mapM_congr {g g' : Handle → Option Const} {hs : List Handle}
    (h : ∀ x ∈ hs, g x = g' x) : hs.mapM g = hs.mapM g' := by
  induction hs with
  | nil => rfl
  | cons x hs ih =>
    rw [List.mapM_cons, List.mapM_cons, h x List.mem_cons_self,
      ih fun y hy => h y (List.mem_cons_of_mem _ hy)]

namespace Buffer.Becomes

variable {b b' F : Buffer} {env : Nat → Option Const} {f : FloatModel}

theorem refl (b : Buffer) : b.Becomes b :=
  ⟨rfl, fun _ i hi => ⟨i, hi, rfl, rfl, fun _ => rfl⟩⟩

theorem trans (h : b.Becomes b') (h' : b'.Becomes F) : b.Becomes F := by
  refine ⟨h'.id.trans h.id, fun n i hi => ?_⟩
  obtain ⟨j, hj, hop, hops, hpure⟩ := h.instr n i hi
  obtain ⟨k, hk, hop', hops', hpure'⟩ := h'.instr n j hj
  refine ⟨k, hk, hop'.trans hop, hops'.trans hops, fun hi => ?_⟩
  rw [hpure hi] at hpure'
  exact hpure' hi

/-- A payload changes of an instruction that is not pure. -/
theorem setPayload (hi : b.instrs[n]? = some i) (hpure : i.isPure = false) (p : Payload) :
    b.Becomes (b.setPayload n p) := by
  refine ⟨rfl, fun m j hj => ?_⟩
  simp only [Buffer.setPayload, Array.getElem?_modify]
  split
  · rename_i hnm
    subst hnm
    cases hi.symm.trans hj
    rw [hi]
    exact ⟨_, rfl, rfl, rfl, fun h => by rw [hpure] at h; cases h⟩
  · exact ⟨j, hj, rfl, rfl, fun _ => rfl⟩

theorem pure (h : b.Becomes F) (hi : b.instrs[n]? = some i) (hpure : i.isPure = true) :
    F.instrs[n]? = some i := by
  obtain ⟨j, hj, -, -, heq⟩ := h.instr n i hi
  rw [hj, heq hpure]

theorem get? (h : b.Becomes F) (hi : b.get? x = some i) :
    ∃ j, F.get? x = some j ∧ j.constant? = i.constant? ∧ (i.isPure = true → j = i) := by
  obtain ⟨hid, hat⟩ := get?_eq_some hi
  obtain ⟨j, hj, hop, -, heq⟩ := h.instr _ _ hat
  refine ⟨j, get?_of_instrs (hid.trans h.id.symm) hj, ?_, heq⟩
  cases hpure : i.isPure with
  | true => rw [heq hpure]
  | false =>
    have hpure' : j.isPure = false := by rw [← hpure, Instr.isPure, hop]; rfl
    rw [Instr.constant?_eq_none (Instr.not_immediate hpure),
      Instr.constant?_eq_none (Instr.not_immediate hpure')]

theorem operand? (h : b.Becomes F) (hi : b.get? x = some i) :
    Interp.operand? F env x = Interp.operand? b env x := by
  obtain ⟨j, hj, hconst, -⟩ := h.get? hi
  rw [Interp.operand?_of_get? hi, Interp.operand?_of_get? hj, hconst]

theorem meaning (h : b.Becomes F) (hi : ∀ x ∈ i.operandList, ∃ j, b.get? x = some j) :
    Interp.meaning f F env i = Interp.meaning f b env i := by
  have hops : Interp.operands? F env i = Interp.operands? b env i := by
    refine Interp.mapM_congr fun x hx => ?_
    obtain ⟨j, hj⟩ := hi x hx
    exact h.operand? hj
  rw [Interp.meaning, Interp.meaning, hops]

theorem ready (h : b.Becomes F) (hi : ∀ x ∈ i.operandList, ∃ j, b.get? x = some j) :
    Interp.Ready F env i ↔ Interp.Ready b env i := by
  have hlist : ∀ {hs : List Handle} {ts : List ValTy}, (∀ x ∈ hs, ∃ j, b.get? x = some j) →
      (List.Forall₂ (fun h t => ∃ v, Interp.operand? F env h = some v ∧ v.ty = t) hs ts ↔
        List.Forall₂ (fun h t => ∃ v, Interp.operand? b env h = some v ∧ v.ty = t) hs ts) := by
    intro hs ts hhs
    induction hs generalizing ts with
    | nil => rw [List.forall₂_nil_left_iff, List.forall₂_nil_left_iff]
    | cons x hs ih =>
      obtain ⟨j, hj⟩ := hhs x List.mem_cons_self
      rw [List.forall₂_cons_left_iff, List.forall₂_cons_left_iff, h.operand? hj]
      simp only [ih fun y hy => hhs y (List.mem_cons_of_mem _ hy)]
  exact hlist hi

end Buffer.Becomes

/-- The operands of a fitting instruction are values before it. -/
theorem Instr.Fits.refers (h : i.Fits b k) (hx : x ∈ i.operandList) :
    ∃ t, b.Refers k x (.val t) := by
  obtain ⟨n, hn, rfl⟩ := List.getElem_of_mem hx
  exact ⟨_, (List.forall₂_iff_get.mp h.operands).2 n hn (h.operands.length_eq ▸ hn)⟩

theorem Instr.Fits.get? (h : i.Fits b k) : ∀ x ∈ i.operandList, ∃ j, b.get? x = some j := by
  intro x hx
  obtain ⟨t, ht⟩ := h.refers hx
  exact ht.get?

/-- An immediate that fits has a constant. -/
theorem Instr.Fits.constant? (h : i.Fits b k) (himm : i.opcode.isImmediate = true) :
    ∃ c, i.constant? = some c := by
  have hkind := h.kind
  unfold Instr.constant?
  cases hop : i.opcode with
  | imm t =>
    rw [hop] at hkind
    cases hp : i.payload with
    | const c => exact ⟨c, rfl⟩
    | _ => rw [hp] at hkind; cases hkind
  | _ => rw [hop] at himm; cases himm

theorem Const.eq_of_bits {c d : Const} (ht : c.ty = d.ty) (hb : c.bits = d.bits) : c = d := by
  have hword : ∀ x y : BitVec 32, x.setWidth 64 = y.setWidth 64 → x = y := by
    intro x y h
    have := congrArg (BitVec.setWidth 32) h
    rwa [BitVec.setWidth_setWidth_of_le _ (by decide), BitVec.setWidth_setWidth_of_le _ (by decide),
      BitVec.setWidth_eq, BitVec.setWidth_eq] at this
  cases c <;> cases d <;> cases ht
  · exact congrArg _ (hword _ _ hb)
  · exact congrArg _ hb
  · exact congrArg _ hb
  · exact congrArg _ (hword _ _ hb)

theorem Opcode.payloadKind_of_pure (h : (op.effect == .pure) = true) :
    op.payloadKind = .none ∨ op.payloadKind = .imm := by
  cases op <;> first | exact .inl rfl | exact .inr rfl | cases h

/-- The key tells pure instructions apart. -/
theorem Instr.eq_of_shareKey {k' : Nat} (hi : i.Fits b k) (hj : j.Fits b' k')
    (hpure : i.isPure = true) (h : i.shareKey = j.shareKey) : i = j := by
  obtain ⟨op, ops, p⟩ := i
  obtain ⟨op', ops', p'⟩ := j
  obtain ⟨hop, hops, hbits⟩ := ShareKey.mk.inj h
  cases hop
  cases hops
  have hpi : p.kind = op.payloadKind := hi.kind
  have hpj : p'.kind = op.payloadKind := hj.kind
  rcases Opcode.payloadKind_of_pure hpure with hkind | hkind
  · rw [Payload.eq_none_of_kind (hpi.trans hkind), Payload.eq_none_of_kind (hpj.trans hkind)]
  · obtain ⟨c, rfl⟩ := Payload.exists_const (hpi.trans hkind)
    obtain ⟨d, rfl⟩ := Payload.exists_const (hpj.trans hkind)
    have hty := Ty.val.inj ((hi.const c rfl).symm.trans (hj.const d rfl))
    rw [Const.eq_of_bits hty hbits]

/-! ### What rewrites draw on -/

/-- A plan names only operands of the instruction, and operands of the pure instructions that these
    name. -/
def Plan.DrawsOn (b : Buffer) (i : Instr) : Plan → Prop
  | .keep j | .replace j => ∀ x ∈ j.operandList, x ∈ i.operandList
  | .existing h => h ∈ i.operandList ∨ ∃ x ∈ i.operandList, ∃ j, b.get? x = some j ∧
      j.isPure = true ∧ j.opcode.isImmediate = false ∧ h ∈ j.operandList
  | .shiftLeft _ a _ => a ∈ i.operandList

/-- A plan hands on no division but the instruction itself. -/
def Plan.Tame (i : Instr) : Plan → Prop
  | .keep j => j = i ∨ j.opcode.canTrap = false
  | .replace j => j.opcode.canTrap = false
  | .existing _ | .shiftLeft _ _ _ => True

namespace Simplify

variable {b : Buffer} {i : Instr} {p : Plan}

theorem Identity.drawsOn {y : Handle} {u v : Option (BitVec 64)} (h : Identity x y u v op p)
    (hx : x ∈ i.operandList) (hy : y ∈ i.operandList) : p.DrawsOn b i := by
  cases h with
  | fold | cancel | reflexive | remOne => exact fun z hz => nomatch hz
  | idempotent | unit | shiftZero => exact .inl hx
  | absorb => exact .inl hy
  | power => exact hx
  | negate =>
    intro z hz
    cases List.mem_singleton.mp hz
    exact hy

theorem Identity.tame {y : Handle} {u v : Option (BitVec 64)} (h : Identity x y u v op p) :
    p.Tame i := by
  cases h with
  | fold | cancel | reflexive | remOne | negate => exact rfl
  | idempotent | unit | absorb | power | shiftZero => trivial

theorem Rewrite.drawsOn (h : Rewrite b i p) (hfit : i.Fits b k) : p.DrawsOn b i := by
  have hmem : ∀ {x : Handle}, i.operands.fst = some x ∨ i.operands.snd = some x ∨
      i.operands.thd = some x → x ∈ i.operandList := fun h => Instr.mem_operandList.mpr h
  cases h with
  | keep => exact fun x hx => hx
  | foldUnary => exact fun x hx => nomatch hx
  | undo hx hget hundo hy =>
    obtain ⟨-, hinner, himm⟩ := pure_of_undoes hundo
    obtain ⟨j, hj⟩ := hfit.get? _ (hmem (.inl hx))
    obtain ⟨-, hat⟩ := Buffer.get_eq_ok hget
    cases (Buffer.get?_eq_some hj).2.symm.trans hat
    exact .inr ⟨_, hmem (.inl hx), _, hj, hinner, himm, Instr.mem_operandList.mpr (.inl hy)⟩
  | swap hop hcomm hx hy =>
    intro x hx'
    rcases Instr.mem_operandList.mp hx' with h | h | h
    · cases h; exact hmem (.inr (.inl hy))
    · cases h; exact hmem (.inl hx)
    · cases h
  | binary hop hx hy h => exact h.drawsOn (hmem (.inl hx)) (hmem (.inr (.inl hy)))
  | swapped hop hcomm hx hy h => exact h.drawsOn (hmem (.inr (.inl hy))) (hmem (.inl hx))
  | choose hop hops hk =>
    refine .inl (hmem ?_)
    rw [hops]
    split
    · exact .inr (.inr rfl)
    · exact .inr (.inl rfl)
  | agree hop hops =>
    refine .inl (hmem ?_)
    rw [hops]
    exact .inr (.inl rfl)

theorem Rewrite.tame (h : Rewrite b i p) : p.Tame i := by
  cases h with
  | keep => exact .inl rfl
  | foldUnary => exact rfl
  | undo | choose | agree => trivial
  | swap hop hcomm =>
    -- divisions do not commute
    refine .inr ?_
    show i.opcode.canTrap = false
    cases hi : i.opcode with
    | arith w o =>
      rw [hi] at hcomm
      cases o <;> first | rfl | cases hcomm
    | _ => rfl
  | binary _ _ _ h | swapped _ _ _ _ h => exact h.tame

theorem simplify_of_immediate (h : i.opcode.isImmediate = true) :
    i.simplify b = .ok (.keep i) := by
  unfold Instr.simplify
  split <;> first | rfl | simp_all [Opcode.isImmediate]

end Simplify

/-! ### Values in the finished buffer -/

/-- The position is in the set, or from `lo` on and before `hi`. -/
def Extended (P : Nat → Prop) (lo hi n : Nat) : Prop :=
  P n ∨ lo ≤ n ∧ n < hi

theorem extended_extended {lo mid hi : Nat} (hlo : lo ≤ mid) (hhi : mid ≤ hi)
    (h : Extended (Extended P lo mid) mid hi n) : Extended P lo hi n := by
  rcases h with (h | h) | h
  · exact .inl h
  · exact .inr (by omega)
  · exact .inr (by omega)

namespace Interp

variable {F : Buffer} {P Q : Nat → Prop} {env : Nat → Option Const} {f : FloatModel}

/-- The reference names a constant, or its position is in the set. -/
def Available (F : Buffer) (P : Nat → Prop) (h : Handle) : Prop :=
  P h.index ∨ ∃ i c, F.get? h = some i ∧ i.constant? = some c

/-- What the pure instructions of the set read is available. -/
def Closed (F : Buffer) (P : Nat → Prop) : Prop :=
  ∀ n, P n → ∀ i, F.instrs[n]? = some i → i.isPure = true → ∀ x ∈ i.operandList, Available F P x

/-- The pure instructions of the set have computed what they hold. -/
def Coherent (f : FloatModel) (F : Buffer) (env : Nat → Option Const) (P : Nat → Prop) : Prop :=
  ∀ n, P n → ∀ i, F.instrs[n]? = some i → i.isPure = true → env n = meaning f F env i

/-- The handle has the value of the instruction, wherever the set has computed what it holds. -/
def Stands (F : Buffer) (P : Nat → Prop) (i : Instr) (h : Handle) : Prop :=
  ∀ f env, Coherent f F env P → Ready F env i → operand? F env h = meaning f F env i

theorem Available.mono (h : Available F P x) (hPQ : ∀ n, P n → Q n) : Available F Q x :=
  h.imp_left (hPQ _)

theorem Coherent.mono (h : Coherent f F env Q) (hPQ : ∀ n, P n → Q n) : Coherent f F env P :=
  fun n hn => h n (hPQ n hn)

theorem Stands.mono (h : Stands F P i x) (hPQ : ∀ n, P n → Q n) : Stands F Q i x :=
  fun f env hcoh => h f env (hcoh.mono hPQ)

/-- An available reference to a pure instruction has its value. -/
theorem Coherent.operand? (h : Coherent f F env P) (hx : Available F P x) (hj : F.get? x = some j)
    (hpure : j.isPure = true) : Interp.operand? F env x = meaning f F env j := by
  rw [operand?_of_get? hj]
  cases hc : j.constant? with
  | some c => rw [meaning_of_constant? hc, Option.some_or]
  | none =>
    rcases hx with hx | ⟨i, c, hi, hic⟩
    · rw [Option.none_or]
      exact h _ hx j (Buffer.get?_eq_some hj).2 hpure
    · cases hi.symm.trans hj
      rw [hc] at hic
      cases hic

/-- The handle may be used in place of the instruction. -/
structure Shared (F : Buffer) (P : Nat → Prop) (i : Instr) (h : Handle) : Prop where
  stands : Stands F P i h
  available : Available F P h
  constant : i.opcode.isImmediate = true → F.get? h = some i

theorem Shared.mono (h : Shared F P i x) (hPQ : ∀ n, P n → Q n) : Shared F Q i x :=
  ⟨h.stands.mono hPQ, h.available.mono hPQ, h.constant⟩

/-- A constant may be used wherever it stands. -/
theorem Shared.of_immediate (h : Shared F P i x) (hfit : i.Fits b k)
    (himm : i.opcode.isImmediate = true) : Shared F Q i x := by
  obtain ⟨c, hc⟩ := hfit.constant? himm
  refine ⟨fun f env _ _ => ?_, .inr ⟨i, c, h.constant himm, hc⟩, h.constant⟩
  rw [operand?_of_get? (h.constant himm), hc, meaning_of_constant? hc, Option.some_or]

/-- An instruction that stays in the buffer may be used in place of itself. -/
theorem shared_self (hx : F.get? x = some i) (hpure : i.isPure = true) (hP : P x.index) :
    Shared F P i x :=
  ⟨fun _ _ hcoh _ => hcoh.operand? (.inl hP) hx hpure, .inl hP, fun _ => hx⟩

end Interp

/-! ### Chains -/

open Interp

/-- Every key is kept with a handle that may be used for it. -/
def ShareTable.Sound (F : Buffer) (P : Nat → Prop) (t : ShareTable) : Prop :=
  ∀ e ∈ t.entries, ∃ i b k, Instr.Fits b k i ∧ i.isPure = true ∧ i.shareKey = e.1 ∧
    Shared F P i e.2

namespace ShareTable.Sound

variable {F : Buffer} {P Q : Nat → Prop} {t : ShareTable}

theorem mono (h : t.Sound F P) (hPQ : ∀ n, P n → Q n) : t.Sound F Q := by
  intro e he
  obtain ⟨i, b, k, hfit, hpure, hkey, hshared⟩ := h e he
  exact ⟨i, b, k, hfit, hpure, hkey, hshared.mono hPQ⟩

/-- Only constants are left after a label, and they may be used anywhere. -/
theorem clearRegion (h : t.Sound F P) : t.clearRegion.Sound F Q := by
  intro e he
  obtain ⟨hmem, himm⟩ := List.mem_filter.mp he
  obtain ⟨i, b, k, hfit, hpure, hkey, hshared⟩ := h e hmem
  rw [← hkey] at himm
  exact ⟨i, b, k, hfit, hpure, hkey, hshared.of_immediate hfit himm⟩

theorem insert (h : t.Sound F P) (hfit : i.Fits b k) (hpure : i.isPure = true)
    (hx : Shared F P i x) : (t.insert i.shareKey x).Sound F P := by
  intro e he
  rcases List.mem_cons.mp he with rfl | he
  · exact ⟨i, b, k, hfit, hpure, rfl, hx⟩
  · exact h e he

theorem find? (h : t.Sound F P) (hfit : i.Fits b k) (hx : t.find? i.shareKey = some x) :
    Shared F P i x := by
  obtain ⟨l1, l2, heq, -⟩ := List.lookup_eq_some_iff.mp hx
  obtain ⟨j, b', k', hfit', hpure, hkey, hshared⟩ := h (i.shareKey, x) (by rw [heq]; simp)
  rwa [Instr.eq_of_shareKey hfit' hfit hpure hkey] at hshared

end ShareTable.Sound

/-- What the stage remembers may be used. -/
def Stage.Sound (F : Buffer) (P : Nat → Prop) : Stage → Prop
  | .share table _ => table.Sound F P
  | _ => True

/-- What the stages of the chain remember may be used. -/
def Chain.Sound (F : Buffer) (P : Nat → Prop) : {n : Nat} → Chain n → Prop
  | _, .sink => True
  | _, .stage s rest => s.Sound F P ∧ rest.Sound F P

theorem Stage.Sound.mono {s : Stage} (h : s.Sound F P) (hPQ : ∀ n, P n → Q n) : s.Sound F Q := by
  cases s with
  | share table hits => exact ShareTable.Sound.mono h hPQ
  | check | simplify | trace => trivial

theorem Chain.Sound.mono (h : c.Sound F P) (hPQ : ∀ n, P n → Q n) : c.Sound F Q := by
  induction c with
  | sink => trivial
  | stage s rest ih => exact ⟨h.1.mono hPQ, ih h.2⟩

/-- A chain only ever appends. -/
theorem Chain.feed_extends (c : Chain n) (i : Instr) (w : Workspace) :
    w.buffer.Extends (c.feed i w).space.buffer := by
  refine c.feed_induction (P := w.buffer.Extends) (Q := fun _ => True)
    (fun b j _ h => h.trans (.append b j)) (fun b j p _ _ => ?_) trivial w (.refl _)
  cases p <;> simp [Plan.All]

theorem Chain.feed_becomes (c : Chain n) (i : Instr) (w : Workspace) :
    w.buffer.Becomes (c.feed i w).space.buffer :=
  (c.feed_extends i w).becomes

/-- A pure instruction was rendered at the positions from `lo` on and before `hi`: the handle `h` may
    be used in its place, and what stands there is pure, reads what is available and divides only
    if it is the instruction itself. -/
structure Rendition (F : Buffer) (P : Nat → Prop) (lo hi : Nat) (i : Instr) (h : Handle) :
    Prop where
  le : lo ≤ hi
  pure : ∀ k j, lo ≤ k → k < hi → F.instrs[k]? = some j → j.isPure = true
  reads : ∀ k j, lo ≤ k → k < hi → F.instrs[k]? = some j →
    ∀ x ∈ j.operandList, Available F (Extended P lo hi) x
  traps : (∀ k j, lo ≤ k → k < hi → F.instrs[k]? = some j → j.opcode.canTrap = false) ∨
    hi = lo + 1 ∧ F.instrs[lo]? = some i ∧ h = F.handle lo
  shared : Shared F (Extended P lo hi) i h

namespace Rendition

variable {F : Buffer} {P : Nat → Prop} {lo mid hi : Nat} {i j : Instr} {h : Handle}

/-- Nothing is handed on for an instruction that is answered with a handle that may be used. -/
theorem nothing (hh : Shared F P i h) (lo : Nat) : Rendition F P lo lo i h := by
  have hnone : ∀ k, lo ≤ k → ¬k < lo := fun k => Nat.not_lt.mpr
  exact ⟨Nat.le_refl _, fun k _ hlo hhi => absurd hhi (hnone k hlo),
    fun k _ hlo hhi => absurd hhi (hnone k hlo), .inl fun k _ hlo hhi => absurd hhi (hnone k hlo),
    hh.mono fun _ => .inl⟩

/-- The instruction itself is handed on. -/
theorem itself (hat : F.instrs[lo]? = some i) (hpure : i.isPure = true)
    (hops : ∀ x ∈ i.operandList, Available F P x) : Rendition F P lo (lo + 1) i (F.handle lo) := by
  have hone : ∀ k j, lo ≤ k → k < lo + 1 → F.instrs[k]? = some j → j = i := by
    intro k j hlo hhi hj
    obtain rfl : k = lo := by omega
    exact Option.some.inj (hj.symm.trans hat)
  refine ⟨Nat.le_succ lo, fun k j hlo hhi hj => hone k j hlo hhi hj ▸ hpure, ?_,
    .inr ⟨rfl, hat, rfl⟩, ?_⟩
  · intro k j hlo hhi hj
    rw [hone k j hlo hhi hj]
    exact fun x hx => (hops x hx).mono fun _ => .inl
  · refine shared_self (Buffer.get?_of_instrs rfl hat) hpure (.inr ?_)
    exact ⟨Nat.le_refl _, Nat.lt_succ_self _⟩

/-- What is handed on for an instruction that does not divide does not divide. -/
theorem tame (hr : Rendition F P lo hi i h) (htame : i.opcode.canTrap = false) :
    ∀ k j, lo ≤ k → k < hi → F.instrs[k]? = some j → j.opcode.canTrap = false := by
  rcases hr.traps with htraps | ⟨rfl, hat, -⟩
  · exact htraps
  · intro k j hlo hhi hj
    obtain rfl : k = lo := by omega
    cases hj.symm.trans hat
    exact htame

/-- What was handed on is closed with what was there. -/
theorem closed (hr : Rendition F P lo hi i h) (hP : Closed F P) :
    Closed F (Extended P lo hi) := by
  intro n hn j hj hpure x hx
  rcases hn with hn | ⟨hlo, hhi⟩
  · exact (hP n hn j hj hpure x hx).mono fun _ => .inl
  · exact hr.reads n j hlo hhi hj x hx

/-- The rendering of an instruction of the same value that is handed on in place of another one. -/
theorem instead (hr : Rendition F P lo hi j h) (htame : j = i ∨ j.opcode.canTrap = false)
    (himm : i.opcode.isImmediate = true → j = i)
    (hmeans : ∀ f env, Coherent f F env P → Ready F env i →
      Ready F env j ∧ meaning f F env j = meaning f F env i) : Rendition F P lo hi i h := by
  refine { hr with traps := ?_, shared := ⟨fun f env hcoh hready => ?_, hr.shared.available, ?_⟩ }
  · rcases htame with rfl | htame
    · exact hr.traps
    · exact .inl (hr.tame htame)
  · obtain ⟨hready', hmean⟩ := hmeans f env (hcoh.mono fun n => .inl) hready
    rw [← hmean]
    exact hr.shared.stands f env hcoh hready'
  · intro h
    cases himm h
    exact hr.shared.constant h

/-- The constant `k` and a shift by it, handed on one after the other. -/
theorem shifted {w : Width} {a h' : Handle}
    (hr : Rendition F P lo mid (.imm32 (BitVec.ofNat 32 k)) h)
    (hr' : Rendition F (Extended P lo mid) mid hi (.plain (.shift w .shl) [a, h]) h')
    (himm : i.opcode.isImmediate = false)
    (hmeans : ∀ f env, Coherent f F env P → Ready F env i → ∃ x : BitVec w.bits,
      operand? F env a = some (.ofInt w x) ∧
      some (.ofInt w (ShiftOp.shl.apply x (BitVec.ofNat 32 k))) = meaning f F env i) :
    Rendition F P lo hi i h' := by
  have hsub : ∀ n, Extended (Extended P lo mid) mid hi n → Extended P lo hi n := fun n =>
    extended_extended hr.le hr'.le
  refine ⟨Nat.le_trans hr.le hr'.le, ?_, ?_, .inl ?_, ?_⟩
  · intro n j hlo hhi hj
    rcases Nat.lt_or_ge n mid with hn | hn
    · exact hr.pure n j hlo hn hj
    · exact hr'.pure n j hn hhi hj
  · intro n j hlo hhi hj x hx
    rcases Nat.lt_or_ge n mid with hn | hn
    · exact (hr.reads n j hlo hn hj x hx).mono fun n hn => hsub n (.inl hn)
    · exact (hr'.reads n j hn hhi hj x hx).mono hsub
  · intro n j hlo hhi hj
    rcases Nat.lt_or_ge n mid with hn | hn
    · exact hr.tame rfl n j hlo hn hj
    · exact hr'.tame rfl n j hn hhi hj
  · refine ⟨fun f env hcoh hready => ?_, hr'.shared.available.mono hsub, fun h => ?_⟩
    · obtain ⟨x, hx, hmean⟩ := hmeans f env (hcoh.mono fun n => .inl) hready
      have hcount : operand? F env h = some (.int32 (BitVec.ofNat 32 k)) := by
        rw [operand?_of_get? (hr.shared.constant rfl)]
        rfl
      rw [← hmean, hr'.shared.stands f env (hcoh.mono hsub) (.cons ⟨_, hx, Const.ty_ofInt _ _⟩
        (.cons ⟨_, hcount, rfl⟩ .nil)), Simplify.meaning_two hx hcount rfl rfl rfl]
      exact pureValue_shift _ _ _ _
    · rw [himm] at h
      cases h

end Rendition

/-- A chain rendered an instruction at the end of the buffer `b`. -/
structure Fed.Rendered {n : Nat} (r : Fed n) (F : Buffer) (P : Nat → Prop) (b : Buffer) (i : Instr)
    (h : Handle) : Prop where
  answer : r.answer = .ok h
  rendition : Rendition F P b.size r.space.buffer.size i h
  chain : r.chain.Sound F (Extended P b.size r.space.buffer.size)

namespace Fed.Rendered

variable {n : Nat} {r : Fed n} {F : Buffer} {P : Nat → Prop} {b : Buffer} {i j : Instr} {h : Handle}

theorem under (hr : r.Rendered F P b i h) {s : Stage}
    (hs : s.Sound F (Extended P b.size r.space.buffer.size)) : (r.under s).Rendered F P b i h :=
  ⟨hr.answer, hr.rendition, hs, hr.chain⟩

theorem traced (hr : r.Rendered F P b i h) (next : Nat) : (r.traced next).Rendered F P b i h := by
  unfold Fed.traced
  rw [hr.answer]
  exact ⟨hr.answer, hr.rendition, trivial, hr.chain⟩

end Fed.Rendered

/-- A plan keeps the value of the instruction, as seen in the finished buffer. -/
theorem Simplify.Rewrite.means_finished {p : Plan} {f : FloatModel} {env : Nat → Option Const}
    (h : Rewrite b i p) (hF : b.Becomes F) (hb : b.Validated) (hi : i.check b = .ok ())
    (hops : ∀ x ∈ i.operandList, Available F P x) (hcoh : Coherent f F env P)
    (hready : Ready F env i) : p.Means f F env (meaning f F env i) := by
  have hfit := Instr.fits_of_check hi
  have hplan := h.typed hb hi
  have hmeans : p.Means f b env (meaning f F env i) := by
    rw [hF.meaning hfit.get?]
    refine h.means hb hi ((hF.ready hfit.get?).mp hready) fun x hx j hj hundo => ?_
    have hpure : j.isPure = true := (pure_of_undoes hundo).2.1
    obtain ⟨j', hj', -, heq⟩ := hF.get? hj
    cases heq hpure
    rw [← hF.operand? hj, ← hF.meaning (hb.fits (Buffer.get?_eq_some hj).2).get?]
    exact hcoh.operand? (hops x hx) hj' hpure
  -- what the plan names is in the buffer, so it has the same value in the finished one
  cases p with
  | keep j | replace j =>
    have hget := (Instr.fits_of_check hplan.1).get?
    exact ⟨(hF.ready hget).mpr hmeans.1, (hF.meaning hget).trans hmeans.2⟩
  | existing h =>
    obtain ⟨j, hj⟩ := Buffer.Refers.get? hplan
    exact (hF.operand? hj).trans hmeans
  | shiftLeft w a k =>
    obtain ⟨j, hj⟩ := hplan.2.get?
    obtain ⟨x, hx, hmean⟩ := hmeans
    exact ⟨x, (hF.operand? hj).trans hx, hmean⟩

/-- The answer to a pure instruction that passes the check may be used in its place, whatever the
    chain. -/
theorem Chain.feed_rendered (hF : (c.feed i w).space.buffer.Becomes F) (htyped : c.Typed w.buffer)
    (hsound : c.Sound F P) (hw : w.buffer.Validated) (hi : i.check w.buffer = .ok ())
    (hpure : i.isPure = true) (hclosed : Closed F P) (hops : ∀ x ∈ i.operandList, Available F P x) :
    ∃ h, (c.feed i w).Rendered F P w.buffer i h := by
  have hbF := (c.feed_becomes i w).trans hF
  have hfit := Instr.fits_of_check hi
  induction n generalizing i w P with
  | zero =>
    cases c
    have hat : F.instrs[w.buffer.size]? = some i := hF.pure (w.buffer.instrs_append_size i) hpure
    refine ⟨w.buffer.next, rfl, ?_, trivial⟩
    rw [show (Chain.sink.feed i w).space.buffer.size = w.buffer.size + 1 from w.buffer.size_append i,
      show w.buffer.next = F.handle w.buffer.size from congrArg (Handle.mk · _) hF.id.symm]
    exact .itself hat hpure hops
  | succ n ih =>
    cases c with | stage s rest =>
    obtain ⟨hs, hrest⟩ := hsound
    obtain ⟨-, htyped⟩ := htyped
    cases s with
    | check position =>
      rw [feed, hi] at hF ⊢
      obtain ⟨h, hr⟩ := ih hF htyped hrest hw hi hpure hclosed hops hbF hfit
      exact ⟨h, hr.under trivial⟩
    | trace next =>
      rw [feed] at hF ⊢
      rw [Fed.buffer_traced] at hF
      obtain ⟨h, hr⟩ := ih hF htyped hrest hw hi hpure hclosed hops hbF hfit
      exact ⟨h, hr.traced next⟩
    | simplify count =>
      obtain ⟨p, hp⟩ := Simplify.exists_plan hi
      have hrewrite := Simplify.rewrite_of_simplify hp
      have hplan := hrewrite.typed hw hi
      have hdraws := hrewrite.drawsOn hfit
      have hmeans := fun f env (hcoh : Coherent f F env P) (hready : Ready F env i) =>
        hrewrite.means_finished hbF hw hi hops hcoh hready
      have himm : i.opcode.isImmediate = true → p = .keep i := fun h =>
        Except.ok.inj (hp.symm.trans (Simplify.simplify_of_immediate h))
      rw [feed, hp] at hF ⊢
      cases p with
      | keep j =>
        obtain ⟨h, hr⟩ := ih hF htyped hrest hw hplan.1 (hrewrite.isPure hpure) hclosed
          (fun x hx => hops x (hdraws x hx)) hbF (Instr.fits_of_check hplan.1)
        exact ⟨h, hr.answer, hr.rendition.instead hrewrite.tame (fun h => Plan.keep.inj (himm h))
          hmeans, trivial, hr.chain⟩
      | replace j =>
        obtain ⟨h, hr⟩ := ih (w := w.report _) hF htyped hrest hw hplan.1 (hrewrite.isPure hpure)
          hclosed (fun x hx => hops x (hdraws x hx)) hbF (Instr.fits_of_check hplan.1)
        exact ⟨h, hr.answer, hr.rendition.instead (.inr hrewrite.tame) (fun h => by cases himm h)
          hmeans, trivial, hr.chain⟩
      | existing h =>
        refine ⟨h, rfl, .nothing ⟨hmeans, ?_, fun h => by cases himm h⟩ _, trivial,
          hrest.mono fun _ => .inl⟩
        rcases hdraws with hmem | ⟨x, hx, j, hj, hjpure, hjimm, hmem⟩
        · exact hops h hmem
        · -- an operand of an instruction that the rewrite saw through
          obtain ⟨j', hj', -, heq⟩ := hbF.get? hj
          cases heq hjpure
          rcases hops x hx with hP | ⟨j', c, hj'', hc⟩
          · exact hclosed _ hP j (Buffer.get?_eq_some hj').2 hjpure h hmem
          · cases hj'.symm.trans hj''
            rw [Instr.constant?_eq_none hjimm] at hc
            cases hc
      | shiftLeft width a k =>
        obtain ⟨hres, ha⟩ := hplan
        have hhelper := feed_typed (i := .imm32 (BitVec.ofNat 32 k)) htyped hw (Instr.check_const _)
        obtain ⟨h, hanswer, hh⟩ := hhelper.answer
        dsimp only at hF ⊢
        rw [hanswer] at hF ⊢
        have hF1 := (feed_becomes _ _ (Workspace.report _ _)).trans hF
        obtain ⟨h1, hr1⟩ := ih hF1 htyped hrest hw (Instr.check_const _) rfl hclosed
          (fun x hx => by cases hx) hbF (Instr.fits_of_check (Instr.check_const _))
        cases Except.ok.inj (hr1.answer.symm.trans hanswer)
        have hshift : (Instr.plain (.shift width .shl) [a, h]).check
            (rest.feed (.imm32 (BitVec.ofNat 32 k)) w).space.buffer = .ok () :=
          Instr.check_of_operands (.cons (hhelper.grows.refers (hres ▸ ha)) (.cons hh .nil)) rfl rfl
        have hreads : ∀ x ∈ (Instr.plain (.shift width .shl) [a, h]).operandList, Available F
            (Extended P w.buffer.size (rest.feed (.imm32 (BitVec.ofNat 32 k)) w).space.buffer.size)
              x := by
          intro x hx
          rcases List.mem_cons.mp (show x ∈ [a, h] from hx) with rfl | hx
          · exact (hops x hdraws).mono fun _ => .inl
          · cases List.mem_singleton.mp hx
            exact hr1.rendition.shared.available
        obtain ⟨h2, hr2⟩ := ih (w := Workspace.report _ _) hF hhelper.chain hr1.chain hhelper.valid
          hshift rfl (hr1.rendition.closed hclosed) hreads hF1 (Instr.fits_of_check hshift)
        refine ⟨h2, hr2.answer, hr1.rendition.shifted hr2.rendition ?_ hmeans, trivial,
          hr2.chain.mono fun n => extended_extended hr1.rendition.le hr2.rendition.le⟩
        exact Bool.eq_false_iff.mpr fun h => by cases himm h
    | share table hits =>
      have hlabel : i.opcode ≠ .label := by
        intro h
        rw [Instr.isPure, h] at hpure
        cases hpure
      rw [feed, if_neg hlabel, if_pos (show i.opcode.isShareable = true from hpure)] at hF ⊢
      cases hfind : table.find? i.shareKey with
      | some h =>
        exact ⟨h, rfl, .nothing (ShareTable.Sound.find? hs hfit hfind) _,
          ShareTable.Sound.mono hs fun _ => .inl, hrest.mono fun _ => .inl⟩
      | none =>
        obtain ⟨h, hanswer, -⟩ := (feed_typed htyped hw hi).answer
        rw [hfind] at hF
        dsimp only at hF ⊢
        rw [hanswer] at hF ⊢
        obtain ⟨h', hr⟩ := ih hF htyped hrest hw hi hpure hclosed hops hbF hfit
        cases Except.ok.inj (hr.answer.symm.trans hanswer)
        refine ⟨h, hr.under ?_⟩
        exact (ShareTable.Sound.mono hs fun _ => .inl).insert hfit hpure hr.rendition.shared

/-- An instruction that is not pure joins the buffer as it is, unless a check refuses it. -/
theorem Chain.feed_effect_cases (hpure : i.isPure = false) :
    (c.feed i w).answer = .ok w.buffer.next ∧ (c.feed i w).space.buffer = (w.buffer.append i).2 ∨
      i.check w.buffer ≠ .ok () ∧ ∃ f, (c.feed i w).answer = .error f := by
  have hshare : ¬i.opcode.isShareable = true := fun h => Bool.false_ne_true (hpure.symm.trans h)
  induction c generalizing w with
  | sink => exact .inl ⟨rfl, rfl⟩
  | stage s rest ih =>
    cases s with
    | check position =>
      rw [feed]
      cases hi : i.check w.buffer with
      | ok u => exact .inl ((ih (w := w)).resolve_right fun h => h.1 hi)
      | error d => exact .inr ⟨by simp, _, rfl⟩
    | trace next =>
      rw [feed, Fed.answer_traced, Fed.buffer_traced]
      exact ih
    | simplify count =>
      rw [feed, Simplify.simplify_of_not_isPure hpure]
      exact ih
    | share table hits =>
      rw [feed, if_neg hshare]
      split <;> exact ih

/-- A checked instruction that is not pure joins the buffer as it is. -/
theorem Chain.feed_effect (hi : i.check w.buffer = .ok ()) (hpure : i.isPure = false) :
    (c.feed i w).answer = .ok w.buffer.next ∧ (c.feed i w).space.buffer = (w.buffer.append i).2 :=
  (feed_effect_cases hpure).resolve_right fun h => h.1 hi

/-- An instruction that is not pure and has got a handle has joined the buffer as it is. -/
theorem Chain.feed_effect_of_ok (hpure : i.isPure = false) (hok : (c.feed i w).answer = .ok h) :
    h = w.buffer.next ∧ (c.feed i w).space.buffer = (w.buffer.append i).2 := by
  rcases feed_effect_cases (c := c) (w := w) hpure with ⟨hanswer, hbuffer⟩ | ⟨-, f, hanswer⟩
  · exact ⟨Except.ok.inj (hok.symm.trans hanswer), hbuffer⟩
  · cases hok.symm.trans hanswer

/-- What a chain remembers may still be used after an instruction that is not pure; after a label
    nothing but constants is remembered. -/
theorem Chain.Sound.feed_effect (hsound : c.Sound F P) (hi : i.check w.buffer = .ok ())
    (hpure : i.isPure = false) (hPQ : i.opcode ≠ .label → ∀ n, P n → Q n) :
    (c.feed i w).chain.Sound F Q := by
  have hshare : ¬i.opcode.isShareable = true := fun h => Bool.false_ne_true (hpure.symm.trans h)
  induction c generalizing i w with
  | sink => trivial
  | stage s rest ih =>
    obtain ⟨hs, hrest⟩ := hsound
    have hchain := ih hrest hi hpure hPQ hshare
    cases s with
    | check position =>
      rw [feed, hi]
      exact ⟨trivial, hchain⟩
    | trace next =>
      rw [feed]
      unfold Fed.traced
      rw [(Chain.feed_effect hi hpure).1]
      exact ⟨trivial, hchain⟩
    | simplify count =>
      rw [feed, Simplify.simplify_of_not_isPure hpure]
      exact ⟨trivial, hchain⟩
    | share table hits =>
      rw [feed, if_neg hshare]
      by_cases hlabel : i.opcode = .label
      · rw [if_pos hlabel]
        exact ⟨ShareTable.Sound.clearRegion hs, hchain⟩
      · rw [if_neg hlabel]
        exact ⟨ShareTable.Sound.mono hs (hPQ hlabel), hchain⟩

end JitBackend
