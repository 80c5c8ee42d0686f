import JitBackend.Pipeline.Assembly
import JitBackend.Proofs.Rewrites
import JitBackend.Proofs.Validated

namespace JitBackend

/-!
# Types in pipelines

An instruction that passes the check is handed on as instructions that pass the check, by every
stage and in every order of stages. The answer has the type of the instruction, so what is said
about it later is as well typed as before.

* `Simplify.Rewrite.typed` — every rewrite keeps the type;
* `Chain.Typed` — what a chain remembers has the right types;
* `Chain.feed_typed` — a checked instruction is accepted, under its own type;
* `Pipeline.Reachable` — what sending instructions and binding jumps leads to;
* `Pipeline.Reachable.feed_accepted` — the check at the end never refuses what the first one passed.
-/

/-! ### Passing the check -/

variable {b b' : Buffer} {op : Opcode} {x h y : Handle} {k n : Nat} {t : Ty} {p : Pipeline}
  {s : ValTy} {w : Workspace} {c : Config}

namespace Instr

variable {b : Buffer} {i : Instr}

theorem checkOperands_of_refers {hs : List Handle} {ts : List ValTy}
    (h : List.Forall₂ (fun h t => b.Refers b.size h (.val t)) hs ts) (p : Nat) :
    checkOperands b p (hs.zip ts) = .ok () := by
  induction h generalizing p with
  | nil => rfl
  | cons hx _ ih =>
    rw [List.zip_cons_cons, checkOperands, checkOperand_eq_ok.mpr hx]
    exact (if_pos rfl).trans (ih (p + 1))

theorem check_const (c : Const) : (Instr.const c).check b = .ok () := by
  cases c <;> rfl

/-- An instruction without a payload passes if its operands have the right types. -/
theorem check_of_operands {x y z : Option Handle}
    (hargs : List.Forall₂ (fun h t => b.Refers b.size h (.val t)) (Operands.toList ⟨x, y, z⟩)
      op.operands) (hfull : ((Operands.slots ⟨x, y, z⟩).take op.arity).all Option.isSome = true)
    (hkind : op.payloadKind = .none) : Instr.check b ⟨op, ⟨x, y, z⟩, .none⟩ = .ok () := by
  have hlen : (Operands.toList ⟨x, y, z⟩).length = op.arity := hargs.length_eq
  have hcount : checkCount ⟨op, ⟨x, y, z⟩, .none⟩ = .ok () := by
    unfold checkCount
    exact if_pos ⟨hlen, by rw [operandList, hlen]; exact hfull⟩
  rw [check, hcount]
  show (checkOperands b 0 _ >>= _) = _
  rw [operandList, checkOperands_of_refers hargs]
  show (if PayloadKind.none ≠ op.payloadKind then _ else _) = _
  rw [hkind]
  rfl

/-- The operand of a fitting instruction of one operand. -/
theorem Fits.refers_one {t : ValTy} (h : i.Fits b k) (hop : i.opcode.operands = [t])
    (hx : i.operands.fst = some x) : b.Refers k x (.val t) := by
  have hops := h.operands
  rw [hop, operandList, Operands.toList, Operands.slots, hx] at hops
  exact (List.forall₂_cons.mp hops).1

/-- The operands of a fitting instruction of two operands. -/
theorem Fits.refers_two {t : ValTy} (h : i.Fits b k) (hop : i.opcode.operands = [s, t])
    (hx : i.operands.fst = some x) (hy : i.operands.snd = some y) :
    b.Refers k x (.val s) ∧ b.Refers k y (.val t) := by
  have hops := h.operands
  rw [hop, operandList, Operands.toList, Operands.slots, hx, hy] at hops
  obtain ⟨hfst, hrest⟩ := List.forall₂_cons.mp hops
  exact ⟨hfst, (List.forall₂_cons.mp hrest).1⟩

/-- The operands of a fitting instruction of three operands. -/
theorem Fits.refers_three {r t : ValTy} {z : Handle} (h : i.Fits b k)
    (hop : i.opcode.operands = [r, s, t]) (hops : i.operands = ⟨some x, some y, some z⟩) :
    b.Refers k x (.val r) ∧ b.Refers k y (.val s) ∧ b.Refers k z (.val t) := by
  have hargs := h.operands
  rw [hop, operandList, hops] at hargs
  obtain ⟨hfst, hrest⟩ := List.forall₂_cons.mp hargs
  obtain ⟨hsnd, hrest⟩ := List.forall₂_cons.mp hrest
  exact ⟨hfst, hsnd, (List.forall₂_cons.mp hrest).1⟩

end Instr

theorem Payload.eq_none_of_kind {p : Payload} (h : p.kind = .none) : p = .none := by
  cases p <;> first | rfl | cases h

theorem Buffer.Refers.mono {m : Nat} (hr : b.Refers k h t) (hkm : k ≤ m) : b.Refers m h t :=
  ⟨hr.own, Nat.lt_of_lt_of_le hr.lt hkm, hr.result⟩

/-- The buffer has only grown: what was there has kept its place and its type. -/
structure Buffer.Grows (b b' : Buffer) : Prop where
  id : b'.id = b.id
  size : b.size ≤ b'.size
  result : ∀ n < b.size, b'.resultAt n = b.resultAt n

namespace Buffer.Grows

theorem refl (b : Buffer) : b.Grows b :=
  ⟨rfl, Nat.le_refl _, fun _ _ => rfl⟩

theorem trans {b'' : Buffer} (h : b.Grows b') (h' : b'.Grows b'') : b.Grows b'' :=
  ⟨h'.id.trans h.id, Nat.le_trans h.size h'.size, fun n hn =>
    (h'.result n (Nat.lt_of_lt_of_le hn h.size)).trans (h.result n hn)⟩

theorem append (b : Buffer) (i : Instr) : b.Grows (b.append i).2 :=
  ⟨rfl, by simp [Buffer.size, Buffer.append], fun _ hn => resultAt_append hn⟩

theorem setPayload (b : Buffer) (n : Nat) (p : Payload) : b.Grows (b.setPayload n p) :=
  ⟨rfl, by simp [Buffer.size, Buffer.setPayload], fun m _ => resultAt_setPayload b n m p⟩

theorem assign (b : Buffer) (place : BitVec 64) (label : Handle) :
    b.Grows (b.assign place label) :=
  ⟨rfl, by simp [Buffer.size, Buffer.assign], fun _ _ => resultAt_assign ..⟩

theorem refers (hg : b.Grows b') (hr : b.Refers b.size h t) : b'.Refers b'.size h t :=
  ⟨hr.own.trans hg.id.symm, Nat.lt_of_lt_of_le hr.lt hg.size, (hg.result _ hr.lt).trans hr.result⟩

end Buffer.Grows

theorem Buffer.refers_append (b : Buffer) (i : Instr) :
    (b.append i).2.Refers (b.append i).2.size b.next i.result := by
  refine ⟨rfl, ?_, ?_⟩
  · simp [Buffer.size, Buffer.append, Buffer.next, Buffer.handle]
  · simp [Buffer.resultAt, Buffer.append, Buffer.next, Buffer.handle, Buffer.size]

theorem Buffer.get_eq_ok {i : Instr} (hget : b.get h = .ok i) :
    h.index < b.size ∧ b.instrs[h.index]? = some i := by
  unfold Buffer.get Buffer.instrAt at hget
  split at hget
  · split at hget
    · rename_i hi
      cases hget
      exact ⟨Buffer.lt_size hi, hi⟩
    · cases hget
  · cases hget

theorem Buffer.Refers.get (hr : b.Refers k h t) : ∃ i, b.get h = .ok i := by
  obtain ⟨i, hi, -⟩ := Option.map_eq_some_iff.mp hr.result
  exact ⟨i, by rw [Buffer.get, if_pos hr.own, Buffer.instrAt, hi]⟩

/-! ### Rewrites -/

theorem Const.ty_ofInt (w : Width) (v : BitVec w.bits) : (Const.ofInt w v).ty = .int w := by
  cases w <;> rfl

/-- All that is handed on under the plan passes the check, and the answer has type `t`. -/
def Plan.Typed (b : Buffer) (t : Ty) : Plan → Prop
  | .keep j | .replace j => j.check b = .ok () ∧ j.result = t
  | .existing h => b.Refers b.size h t
  | .shiftLeft w a _ => t = .val (.int w) ∧ b.Refers b.size a t

namespace Simplify

variable {b : Buffer} {i : Instr} {p : Plan}

theorem result_of_foldUnary {c : BitVec 64} {v : Const} (h : foldUnary op c = some v) :
    op.result = .val v.ty := by
  unfold foldUnary at h
  split at h
  · cases h; rw [Const.ty_ofInt]; rfl
  · cases h; rfl
  · cases h; rfl
  · cases h; rfl
  · cases h

theorem result_of_foldBinary {x y : BitVec 64} {v : Const} (h : foldBinary op x y = some v) :
    op.result = .val v.ty := by
  unfold foldBinary at h
  split at h
  · obtain ⟨r, -, rfl⟩ := Option.map_eq_some_iff.mp h
    rw [Const.ty_ofInt]; rfl
  · cases h; rw [Const.ty_ofInt]; rfl
  · cases h; rfl
  · cases h

/-- The type of an instruction that is undone is that of the operand of the inner one. -/
theorem operands_of_undoes {inner : Opcode} (h : undoes op inner = true) :
    ∃ t, inner.operands = [t] ∧ op.result = .val t := by
  unfold undoes at h
  split at h
  · rename_i w o w' o'
    obtain ⟨hw, -⟩ := Bool.and_eq_true_iff.mp h
    rw [eq_of_beq hw]
    exact ⟨_, rfl, rfl⟩
  · exact ⟨_, rfl, rfl⟩
  · exact ⟨_, rfl, rfl⟩
  · cases h

/-- An operation that has a unit takes the type of its left operand. -/
theorem operands_of_isUnit {c : BitVec 64} (h : IsUnit op c) :
    ∃ s t, op.operands = [s, t] ∧ op.result = .val s := by
  unfold IsUnit at h
  split at h <;> first | exact ⟨_, _, rfl, rfl⟩ | exact h.elim

theorem Identity.typed {t : ValTy} {u v : Option (BitVec 64)} (h : Identity x y u v op p)
    (hop : op.operands = [s, t]) (hx : b.Refers b.size x (.val s))
    (hy : b.Refers b.size y (.val t)) : p.Typed b op.result := by
  cases h with
  | fold _ _ h => exact ⟨Instr.check_const _, (result_of_foldBinary h).symm⟩
  | cancel | remOne =>
    refine ⟨Instr.check_const _, ?_⟩
    show Ty.val (Const.ty _) = _
    rw [Const.ty_ofInt]; rfl
  | reflexive => exact ⟨Instr.check_const _, rfl⟩
  | idempotent | shiftZero => cases hop; exact hx
  | absorb => cases hop; exact hy
  | power => cases hop; exact ⟨rfl, hx⟩
  | unit _ hc =>
    obtain ⟨s', t', hop', hres⟩ := operands_of_isUnit hc
    rw [hop] at hop'
    cases hop'
    exact hres ▸ hx
  | negate =>
    cases hop
    exact ⟨Instr.check_of_operands (.cons hy .nil) rfl rfl, rfl⟩

/-- The operands of an integer operation, and its payload. -/
theorem operands_of_isIntBinary (h : op.isIntBinary = true) :
    (∃ s t, op.operands = [s, t] ∧ (op.isCommutative = true → s = t)) ∧ op.payloadKind = .none := by
  cases op <;> first
    | exact ⟨⟨_, _, rfl, fun _ => rfl⟩, rfl⟩
    | exact ⟨⟨_, _, rfl, fun h => nomatch h⟩, rfl⟩
    | cases h

/-- Every rewrite of an instruction that passes the check keeps its type, and what it hands on
    passes the check as well. -/
theorem Rewrite.typed (h : Rewrite b i p) (hb : b.Validated) (hi : i.check b = .ok ()) :
    p.Typed b i.result := by
  have hfit := Instr.fits_of_check hi
  cases h with
  | keep => exact ⟨hi, rfl⟩
  | foldUnary _ _ hv => exact ⟨Instr.check_const _, (result_of_foldUnary hv).symm⟩
  | undo hx hget hundo hy =>
    -- the inner instruction passed the check when it joined, so its operand has the right type
    obtain ⟨t, hops, hres⟩ := operands_of_undoes hundo
    obtain ⟨hlt, hinner⟩ := Buffer.get_eq_ok hget
    show b.Refers b.size _ i.opcode.result
    rw [hres]
    exact ((hb.fits hinner).refers_one hops hy).mono (Nat.le_of_lt hlt)
  | swap hop hcomm hx hy =>
    obtain ⟨⟨s, t, hops, hst⟩, hkind⟩ := operands_of_isIntBinary hop
    cases hst hcomm
    obtain ⟨hrx, hry⟩ := hfit.refers_two hops hx hy
    refine ⟨?_, rfl⟩
    have hpay : i.payload = .none := Payload.eq_none_of_kind (hfit.kind.trans hkind)
    rw [hpay]
    refine Instr.check_of_operands ?_ ?_ hkind
    · rw [hops]; exact .cons hry (.cons hrx .nil)
    · rw [Opcode.arity, hops]; rfl
  | binary hop hx hy h =>
    obtain ⟨⟨s, t, hops, -⟩, -⟩ := operands_of_isIntBinary hop
    obtain ⟨hrx, hry⟩ := hfit.refers_two hops hx hy
    exact h.typed hops hrx hry
  | swapped hop hcomm hx hy h =>
    obtain ⟨⟨s, t, hops, hst⟩, -⟩ := operands_of_isIntBinary hop
    cases hst hcomm
    obtain ⟨hrx, hry⟩ := hfit.refers_two hops hx hy
    exact h.typed hops hry hrx
  | choose hop hops _ =>
    obtain ⟨-, hyes, hno⟩ := hfit.refers_three (by rw [hop]; rfl) hops
    show b.Refers b.size _ i.opcode.result
    rw [hop]
    split
    · exact hno
    · exact hyes
  | agree hop hops =>
    obtain ⟨-, hyes, -⟩ := hfit.refers_three (by rw [hop]; rfl) hops
    show b.Refers b.size _ i.opcode.result
    rw [hop]
    exact hyes

/-- The simplifier has a plan for every instruction that passes the check. -/
theorem exists_plan (hi : i.check b = .ok ()) : ∃ p, i.simplify b = .ok p := by
  refine exists_plan_of_get fun x hx => ?_
  obtain ⟨t, href⟩ := (Instr.fits_of_check hi).operand hx
  exact href.get

end Simplify

/-! ### Chains -/

/-- Every key is kept with an instruction of its type. -/
def ShareTable.Typed (b : Buffer) (t : ShareTable) : Prop :=
  ∀ e ∈ t.entries, b.Refers b.size e.2 e.1.opcode.result

namespace ShareTable.Typed

variable {b b' : Buffer} {t : ShareTable}

theorem grows (h : t.Typed b) (hg : b.Grows b') : t.Typed b' :=
  fun e he => hg.refers (h e he)

theorem clearRegion (h : t.Typed b) : t.clearRegion.Typed b :=
  fun e he => h e (List.mem_of_mem_filter he)

theorem insert (h : t.Typed b) {k : ShareKey} (hx : b.Refers b.size x k.opcode.result) :
    (t.insert k x).Typed b := by
  intro e he
  rcases List.mem_cons.mp he with rfl | he
  · exact hx
  · exact h e he

theorem find? (h : t.Typed b) {k : ShareKey} (hx : t.find? k = some x) :
    b.Refers b.size x k.opcode.result := by
  obtain ⟨l1, l2, heq, -⟩ := List.lookup_eq_some_iff.mp hx
  exact h (k, x) (by rw [heq]; simp)

end ShareTable.Typed

/-- What the stage remembers has the right types. -/
def Stage.Typed (b : Buffer) : Stage → Prop
  | .share table _ => table.Typed b
  | _ => True

/-- What the stages of the chain remember has the right types. -/
def Chain.Typed (b : Buffer) : {n : Nat} → Chain n → Prop
  | _, .sink => True
  | _, .stage s rest => s.Typed b ∧ rest.Typed b

theorem Stage.Typed.grows {s : Stage} (h : s.Typed b) (hg : b.Grows b') : s.Typed b' := by
  cases s with
  | share table hits => exact ShareTable.Typed.grows h hg
  | check | simplify | trace => trivial

theorem Chain.Typed.grows {c : Chain n} (h : c.Typed b) (hg : b.Grows b') : c.Typed b' := by
  induction c with
  | sink => trivial
  | stage s rest ih => exact ⟨h.1.grows hg, ih h.2⟩

/-- An instruction of type `t` was accepted: the answer has its type, and all is as well typed as
    it was in the buffer `b`. -/
structure Fed.Accepted {n : Nat} (r : Fed n) (b : Buffer) (t : Ty) : Prop where
  answer : ∃ h, r.answer = .ok h ∧ r.space.buffer.Refers r.space.buffer.size h t
  chain : r.chain.Typed r.space.buffer
  valid : r.space.buffer.Validated
  grows : b.Grows r.space.buffer

theorem Fed.Accepted.under {r : Fed n} (h : r.Accepted b t) {s : Stage}
    (hs : s.Typed r.space.buffer) : (r.under s).Accepted b t :=
  ⟨h.answer, ⟨hs, h.chain⟩, h.valid, h.grows⟩

theorem Fed.Accepted.traced {r : Fed n} (h : r.Accepted b t) (next : Nat) :
    (r.traced next).Accepted b t := by
  obtain ⟨x, hx, hr⟩ := h.answer
  unfold Fed.traced
  rw [hx]
  exact ⟨⟨x, hx, hr⟩, ⟨trivial, h.chain⟩, h.valid, h.grows⟩

/-- A chain of any stages accepts an instruction that passes the check. -/
theorem Chain.feed_typed {c : Chain n} {i : Instr} (hc : c.Typed w.buffer) (hw : w.buffer.Validated)
    (hi : i.check w.buffer = .ok ()) : (c.feed i w).Accepted w.buffer i.result := by
  induction n generalizing i w with
  | zero =>
    cases c
    exact ⟨⟨_, rfl, w.buffer.refers_append i⟩, trivial, hw.append hi, .append _ i⟩
  | succ n ih =>
    cases c with | stage s rest =>
    obtain ⟨hs, hrest⟩ := hc
    cases s with
    | check position =>
      rw [feed, hi]
      exact (ih hrest hw hi).under trivial
    | trace next => exact (ih hrest hw hi).traced next
    | simplify count =>
      obtain ⟨p, hp⟩ := Simplify.exists_plan hi
      have htyped := (Simplify.rewrite_of_simplify hp).typed hw hi
      rw [feed, hp]
      cases p with
      | keep j =>
        obtain ⟨hj, hres⟩ := htyped
        exact hres ▸ (ih hrest hw hj).under trivial
      | replace j =>
        obtain ⟨hj, hres⟩ := htyped
        exact hres ▸ (ih (w := w.report _) hrest hw hj).under trivial
      | existing h => exact ⟨⟨h, rfl, htyped⟩, ⟨trivial, hrest⟩, hw, .refl _⟩
      | shiftLeft width a k =>
        obtain ⟨hres, ha⟩ := htyped
        have hhelper := ih (i := .imm32 (BitVec.ofNat 32 k)) hrest hw (Instr.check_const _)
        obtain ⟨h, hanswer, hh⟩ := hhelper.answer
        dsimp only
        rw [hanswer]
        have hshift : (Instr.plain (.shift width .shl) [a, h]).check
            (rest.feed (.imm32 (BitVec.ofNat 32 k)) w).space.buffer = .ok () :=
          Instr.check_of_operands (.cons (hhelper.grows.refers (hres ▸ ha)) (.cons hh .nil)) rfl rfl
        have hlast := ih (w := (rest.feed (.imm32 (BitVec.ofNat 32 k)) w).space.report
          (.replaced i.opcode (.shift width .shl))) hhelper.chain hhelper.valid hshift
        rw [hres]
        exact ⟨hlast.answer, ⟨trivial, hlast.chain⟩, hlast.valid, hhelper.grows.trans hlast.grows⟩
    | share table hits =>
      have hfeed := ih hrest hw hi
      have htable : table.Typed (rest.feed i w).space.buffer := ShareTable.Typed.grows hs hfeed.grows
      rw [feed]
      split
      · exact hfeed.under htable.clearRegion
      · split
        · split
          · rename_i h hfind
            exact ⟨⟨h, rfl, ShareTable.Typed.find? hs hfind⟩, ⟨hs, hrest⟩, hw, .refl _⟩
          · obtain ⟨h, hanswer, hh⟩ := hfeed.answer
            dsimp only
            rw [hanswer]
            exact hfeed.under (htable.insert hh)
        · exact hfeed.under htable

/-! ### Pipelines -/

namespace Pipeline

/-- What sending instructions through the optimising pipeline of the settings `c` into a new buffer,
    and binding jumps meanwhile, leads to. Refused instructions leave it as it is. -/
inductive Reachable (c : Config) (id : Nat) : Pipeline → Workspace → Prop where
  | start (log : Log) : Reachable c id (ofConfig c true) ⟨.empty id, log⟩
  | feed {p : Pipeline} {w : Workspace} (h : Reachable c id p w) (i : Instr) :
      Reachable c id (p.feed i w).2.1 (p.feed i w).2.2
  | setTarget {p : Pipeline} {w : Workspace} (h : Reachable c id p w) {branch label : Handle}
      {b : Buffer} (hset : w.buffer.setTarget branch label = .ok b) :
      Reachable c id p { w with buffer := b }
  | setTableTarget {p : Pipeline} {w : Workspace} (h : Reachable c id p w) {table label : Handle}
      {n : Nat} {b : Buffer} (hset : w.buffer.setTableTarget table n label = .ok b) :
      Reachable c id p { w with buffer := b }

/-- The pipeline starts with a check, and all that it remembers has the right types. -/
structure Guarded (p : Pipeline) (b : Buffer) : Prop where
  first : ∃ position rest, p.stages = .check position :: rest
  typed : p.chain.Typed b
  valid : b.Validated

theorem toList_ofList (stages : List Stage) : (Chain.ofList stages).toList = stages := by
  induction stages with
  | nil => rfl
  | cons s rest ih => rw [Chain.ofList, Chain.toList, ih]

theorem typed_ofList {stages : List Stage} (h : ∀ s ∈ stages, s.Typed b) :
    (Chain.ofList stages).Typed b := by
  induction stages with
  | nil => trivial
  | cons s rest ih => exact ⟨h s (by simp), ih fun s' hs' => h s' (by simp [hs'])⟩

/-- Nothing is shared in a pipeline that was just assembled. -/
theorem table_of_mem_stagesFor {optimize : Bool} {table : ShareTable} {hits : Nat}
    (h : .share table hits ∈ stagesFor c optimize) : table = .empty := by
  obtain ⟨⟨s, on⟩, hmem, rfl⟩ := List.mem_map.mp h
  have hmem := (List.mem_filter.mp hmem).1
  simp [candidates] at hmem
  exact hmem.1.1

theorem typed_ofConfig (c : Config) (optimize : Bool) (b : Buffer) :
    (ofConfig c optimize).chain.Typed b := by
  refine typed_ofList fun s hs => ?_
  cases s with
  | share table hits =>
    rw [table_of_mem_stagesFor hs]
    exact fun e he => nomatch he
  | check | simplify | trace => trivial

theorem guarded_ofConfig (hc : c.validate = true) (optimize : Bool) (id : Nat) :
    (ofConfig c optimize).Guarded (.empty id) := by
  refine ⟨?_, typed_ofConfig c optimize _, .empty id⟩
  show ∃ position rest, (Chain.ofList (stagesFor c optimize)).toList = .check position :: rest
  rw [toList_ofList, stagesFor, candidates, hc]
  exact ⟨_, _, rfl⟩

/-- A jump that is bound leaves the types as they are. -/
theorem Guarded.grows (h : p.Guarded b) (hg : b.Grows b') (hv : b'.Validated) : p.Guarded b' :=
  ⟨h.first, h.typed.grows hg, hv⟩

theorem Guarded.feed (h : p.Guarded w.buffer) (i : Instr) :
    (p.feed i w).2.1.Guarded (p.feed i w).2.2.buffer := by
  obtain ⟨⟨position, stages, hfirst⟩, htyped, hvalid⟩ := h
  obtain ⟨depth, chain⟩ := p
  cases chain with
  | sink => cases hfirst
  | stage s rest =>
    obtain ⟨rfl, -⟩ := List.cons.inj hfirst
    cases hi : i.check w.buffer with
    | ok u =>
      have haccepted := Chain.feed_typed htyped hvalid hi
      refine ⟨?_, haccepted.chain, haccepted.valid⟩
      show ∃ position rest', (Chain.feed (.stage _ rest) i w).chain.toList = _
      rw [Chain.feed, hi]
      exact ⟨position, _, rfl⟩
    | error d =>
      have hsame : Chain.feed (.stage (.check position) rest) i w
          = ⟨.error (.invalid position i.opcode d), .stage (.check position) rest, w⟩ := by
        rw [Chain.feed, hi]; rfl
      show Guarded ⟨_, (Chain.feed (.stage (.check position) rest) i w).chain⟩
        (Chain.feed (.stage (.check position) rest) i w).space.buffer
      rw [hsame]
      exact ⟨⟨position, _, rfl⟩, htyped, hvalid⟩

theorem Guarded.setTarget (h : p.Guarded b) {branch label : Handle}
    (hset : b.setTarget branch label = .ok b') : p.Guarded b' := by
  refine h.grows ?_ (h.valid.setTarget hset)
  obtain ⟨-, -, -, rfl⟩ := Buffer.setTarget_eq_ok hset
  exact .setPayload _ _ _

theorem Guarded.setTableTarget (h : p.Guarded b) {table label : Handle}
    (hset : b.setTableTarget table n label = .ok b') : p.Guarded b' := by
  refine h.grows ?_ (h.valid.setTableTarget hset)
  obtain ⟨place, rfl⟩ := Buffer.setTableTarget_eq_ok hset
  exact .assign b place label

/-- The optimising pipeline stays guarded, whatever is sent and bound. -/
theorem Reachable.guarded {id : Nat} (hc : c.validate = true) (h : Reachable c id p w) :
    p.Guarded w.buffer := by
  induction h with
  | start log => exact guarded_ofConfig hc true id
  | feed _ i ih => exact ih.feed i
  | setTarget _ hset ih => exact ih.setTarget hset
  | setTableTarget _ hset ih => exact ih.setTableTarget hset

/-- Whatever was sent and bound before, an instruction that passes the check at the start of the
    optimising pipeline is accepted: no stage faults, the check at the end included. All that joins
    the buffer passes that check, and the answer names an instruction of the buffer that has the
    type of the one sent. -/
theorem Reachable.feed_accepted {c : Config} {id : Nat} {p : Pipeline} {w : Workspace}
    (hc : c.validate = true) (h : Reachable c id p w) {i : Instr}
    (hi : i.check w.buffer = .ok ()) :
    (p.feed i w).2.2.buffer.Validated ∧ ∃ h j, (p.feed i w).1 = .ok h ∧
      (p.feed i w).2.2.buffer.get? h = some j ∧ j.result = i.result := by
  obtain ⟨⟨h, hanswer, hr⟩, -, hvalid, -⟩ :=
    Chain.feed_typed (h.guarded hc).typed (h.guarded hc).valid hi
  obtain ⟨j, hj, hres⟩ := Option.map_eq_some_iff.mp hr.result
  refine ⟨hvalid, h, j, hanswer, ?_, hres⟩
  rw [Buffer.get?]
  exact (if_pos hr.own).trans hj

/-- A product with eight is accepted as a shift. -/
theorem Reachable.feed_accepted_scaled :
    ∃ p w, Reachable .standard 0 p w ∧
      (Instr.plain (.arith .w64 .mul) [⟨0, 0⟩, ⟨0, 1⟩]).check w.buffer = .ok () ∧
      ∃ h j, (p.feed (.plain (.arith .w64 .mul) [⟨0, 0⟩, ⟨0, 1⟩]) w).1 = .ok h ∧
        (p.feed (.plain (.arith .w64 .mul) [⟨0, 0⟩, ⟨0, 1⟩]) w).2.2.buffer.get? h = some j ∧
        j.result = .val .int64 := by
  have hreach := ((Reachable.start #[] : Reachable .standard 0 _ _).feed
    ⟨.param, .empty, .param 0⟩).feed (.const (.int64 8))
  exact ⟨_, _, hreach, rfl, (hreach.feed_accepted rfl rfl).2⟩

end Pipeline

end JitBackend
